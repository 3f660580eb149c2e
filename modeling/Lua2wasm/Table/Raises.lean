import Lua2wasm.Table.Isolation

/-!
# Stores that raise

A raw store raises "table overflow" when there is no room for a new key, and another error for a key that is
nil or NaN. Unless it has begun to move the array part to the hash part, the table is left as it was, entry by
entry (`SameLayout`), so that nothing about it has changed (`SameLayout.sameReads`). A rebuild of the index may
come before the error. But a rebuild that drops an entry makes room, so the error comes only after one that
drops none.

`tabDemote` empties the array part before it enters the values in the hash part one by one. `raise_keeps_iff` is
the result: a store that raises leaves all as it was if and only if it does not start such a move (`Demotes`).
`Full` is what an error of the hash part leaves: the next key raises too. `not_raise_keeps` fills a table up to
there, and then has its array part moved.
-/

namespace Lua2wasm.Table

open Probe Raising

variable {s s' s'' : TabState} {sh sh' : Shape} {i j n p : ℕ} {key : Key} {k v : Val} {w : Slot}

/-! ## The same entries at the same positions -/

/-- The table has the same entries at the same positions. -/
structure SameLayout (s s' : TabState) : Prop extends Frame s s' where
  /-- The hash part is in order. -/
  ok : ∃ sh', HashOk s' sh' none
  /-- The keys and their values. -/
  entries : SameEntries s s'

theorem SameLayout.trans (h : SameLayout s s') (h' : SameLayout s' s'') : SameLayout s s'' where
  toFrame := h.toFrame.trans h'.toFrame
  ok := h'.ok
  entries := by
    obtain ⟨sh', hok⟩ := h.ok
    exact h.entries.trans h'.entries hok.shape

/-- Slots are null together. -/
theorem isNull_iff_value : (s.t.slot p).isNull = true ↔ s.t.value p = .nil := by
  constructor
  · exact value_of_isNull
  · intro hv
    by_contra hne
    exact value_ne_nil (by simpa using hne) hv

/-- Scans of arrays that are null at the same places. -/
theorem scanSlots_congr {l l' : Option (List Slot)} : ∀ (todo idx : ℕ),
    (∀ j, idx ≤ j → j < idx + todo →
      (l'.bind fun a => a[j]?).map Slot.isNull = (l.bind fun a => a[j]?).map Slot.isNull) →
    scanSlots l' todo idx = scanSlots l todo idx := by
  intro todo
  induction todo with
  | zero => exact fun _ _ => rfl
  | succ todo ih =>
    intro idx hsame
    have hidx := hsame idx (Nat.le_refl _) (by omega)
    have hrest := ih (idx + 1) fun j hj hlt => hsame j (by omega) (by omega)
    have hunfold : ∀ l : Option (List Slot), scanSlots l (todo + 1) idx =
        ((l.bind fun a => a[idx]?).map Slot.isNull).bind fun b =>
          if b then scanSlots l todo (idx + 1) else some (some idx) := by
      intro l
      rw [scanSlots]
      cases l with
      | none => rfl
      | some a =>
        cases ha : a[idx]? with
        | none => simp [ha]
        | some w => simp [ha]
    rw [hunfold, hunfold, hidx, hrest]

section Reads

variable (h : SameLayout s s') (hok : HashOk s sh none)
include h hok

theorem SameLayout.pos (hs' : s'.shape = some sh') (key : Key) : sh'.pos key = sh.pos key := by
  obtain ⟨hn, heq⟩ := h.entries sh sh' hok.shape hs'
  exact pos_congr hn (fun i hi => (heq i hi).1) key

/-- The hash part reads the same. -/
theorem SameLayout.hget (key : Key) : s'.hget key = s.hget key := by
  obtain ⟨sh', hok'⟩ := h.ok
  rw [hget_of_shape hok.shape, hget_of_shape hok'.shape, h.pos hok hok'.shape]
  cases hp : sh.pos key with
  | none => rfl
  | some i => exact ((h.entries sh sh' hok.shape hok'.shape).2 i (Shape.pos_lt hp)).2

theorem SameLayout.getHash (k : Val) : tabGetHash s' k = tabGetHash s k := by
  obtain ⟨sh', hok'⟩ := h.ok
  rw [tabGetHash_spec hok, tabGetHash_spec hok']
  cases canon k with
  | none => rfl
  | some key => simp only [Option.map_some, h.hget hok]

theorem SameLayout.scanVals (hok' : HashOk s' sh' none) (idx : ℕ) :
    scanSlots s'.t.vals (sh'.n - idx) idx = scanSlots s.t.vals (sh.n - idx) idx := by
  obtain ⟨hn, heq⟩ := h.entries sh sh' hok.shape hok'.shape
  rw [hn]
  apply scanSlots_congr
  intro j hj hlt
  obtain ⟨vals, hv, -, hget⟩ := getElem?_vals (show j < lengthOf s.t.vals by have := hok.vals; omega)
  obtain ⟨vals', hv', -, hget'⟩ := getElem?_vals (show j < lengthOf s'.t.vals by have := hok'.vals; omega)
  simp only [hv, hv', Option.bind_some, hget, hget', Option.map_some]
  congr 1
  rw [Bool.eq_iff_iff, isNull_iff_value, isNull_iff_value, (heq j (by omega)).2]

/-- A scan from a position finds the same. -/
theorem SameLayout.scanHash (idx : ℕ) : Table.scanHash s' idx = Table.scanHash s idx := by
  obtain ⟨sh', hok'⟩ := h.ok
  obtain ⟨hn, heq⟩ := h.entries sh sh' hok.shape hok'.shape
  obtain ⟨o, ho, hscan⟩ := scanSlots_vals hok idx
  have ho' : scanSlots s'.t.vals (sh'.n - idx) idx = some o := by
    rw [h.scanVals hok hok', ho]
  unfold Table.scanHash
  simp only [hok.shape, hok'.shape, ho, ho', Option.bind_eq_bind, Option.bind_some]
  cases o with
  | none => rfl
  | some p =>
    have hp := (hscan.hash 0).1
    obtain ⟨hk, hv⟩ := heq p hp
    dsimp only
    rw [hashEntry_eq hok hp, hashEntry_eq hok' (by omega), hk, hv]

theorem SameLayout.resumeHash (k : Val) : Table.resumeHash s' k = Table.resumeHash s k := by
  obtain ⟨sh', hok'⟩ := h.ok
  have hpos : sh'.pos = sh.pos := funext fun key => h.pos hok hok'.shape key
  unfold Table.resumeHash
  simp only [hok.shape, hok'.shape, tabFind_spec hok.wf, tabFind_spec hok'.wf, Option.bind_eq_bind,
    Option.bind_some, hpos]

/-- A traversal goes on at the same place. -/
theorem SameLayout.resumeAt (k : Val) : Table.resumeAt s' k = Table.resumeAt s k := by
  obtain ⟨sh', hok'⟩ := h.ok
  have hpos : sh'.pos = sh.pos := funext fun key => h.pos hok hok'.shape key
  unfold Table.resumeAt resumePast
  simp only [hok.shape, hok'.shape, tabFind_spec hok.wf, tabFind_spec hok'.wf, Option.bind_eq_bind,
    Option.bind_some, hpos, h.resumeHash hok, h.arr, h.alen]

theorem SameLayout.nextStepHash (j : ℕ) : Table.nextStepHash s' j = Table.nextStepHash s j := by
  obtain ⟨sh', hok'⟩ := h.ok
  obtain ⟨hn, heq⟩ := h.entries sh sh' hok.shape hok'.shape
  obtain ⟨o, ho, hscan⟩ := scanSlots_vals hok j
  have ho' : scanSlots s'.t.vals (sh'.n - j) j = some o := by
    rw [h.scanVals hok hok', ho]
  unfold Table.nextStepHash
  simp only [hok.shape, hok'.shape, ho, ho', Option.bind_eq_bind, Option.bind_some]
  cases o with
  | none => rfl
  | some p =>
    have hp := (hscan.hash 0).1
    obtain ⟨hk, hv⟩ := heq p hp
    dsimp only
    rw [hashEntry_eq hok hp, hashEntry_eq hok' (by omega), hk, hv]

/-- Nothing that a program can see of the table has changed. -/
theorem SameLayout.sameReads : SameReads s s' := by
  have hget := h.getHash hok
  constructor
  · intro k
    unfold tabGetRaw inArr
    simp only [hget, h.arr, h.alen, h.farr]
  · obtain ⟨sh', hok'⟩ := h.ok
    have hn := (h.entries sh sh' hok.shape hok'.shape).1
    have hlen : ∀ fuel i, lenFrom s' fuel i = lenFrom s fuel i := by
      intro fuel
      induction fuel with
      | zero => exact fun _ => rfl
      | succ fuel ih =>
        intro i
        unfold lenFrom
        rw [hget, ih]
    unfold tabLen
    simp only [hok.shape, hok'.shape, Option.bind_eq_bind, Option.bind_some, hn, hlen, h.alen]
  · intro k
    have harr : ∀ idx, scanArr s' idx = scanArr s idx := by
      intro idx
      unfold scanArr arrEntry
      simp only [h.arr, h.alen, h.farr, h.scanHash hok]
    unfold tabNext
    rw [h.resumeAt hok]
    simp only [harr, h.scanHash hok]
  · intro pos
    unfold nextStep
    simp only [h.arr, h.alen, h.farr, h.nextStepHash hok]

end Reads

/-! ## A hash part without room -/

/-- The hash part has no room for another key, and a rebuild makes none. -/
structure Full (s : TabState) (sh : Shape) : Prop where
  /-- The shape is private. -/
  own : s.t.shape = .own sh
  /-- The hash part is in order. -/
  ok : HashOk s sh none
  /-- A rebuild drops nothing. -/
  settled : Settled s sh
  /-- There is no room for the key, or none for its value. -/
  full : (sh.keys.length ≤ sh.n ∧ 8388608 < sh.n) ∨
    (lengthOf s.t.vals ≤ sh.n ∧ valsMax < valsCap (lengthOf s.t.vals) (sh.n + 1))

/-- Once the shape is private, the hash part has no room for another key. -/
def Crowded (s : TabState) : Prop := ∃ s₁ sh₁, Returns tabOwn s () s₁ ∧ Full s₁ sh₁

/-- An insertion that raises has moved no entry, and it raises because there is no room. -/
theorem tabInsertOwned_raises (hok : HashOk s sh none) (hown : s.t.shape = .own sh) (hk : Normal k)
    (hc : canon k = some key) (habsent : sh.pos key = none) (w : Slot) :
    Meets (tabInsertOwned k w (luaHash k)) s (fun _ _ => True)
      (fun _ s' => SameLayout s s' ∧ (∃ sh', Full s' sh') ∧ Full s sh) := by
  have hroom := hok.wf.room
  have hvals := hok.vals
  unfold tabInsertOwned
  apply (rebuildIfFull_spec hok hown).bind_safe
  rintro _ s₁ ⟨hun₁, sh₁, hown₁, hok₁, hhalf, hre⟩
  have hfewer := hun₁.fewer sh sh₁ hok.shape hok₁.shape
  have hkeysLen := hre.keysLen
  have hvalsLen := hre.valsLen
  apply ((growKeys_spec hok₁ hown₁).imp_error ?_).bind
  · rintro _ s₂ ⟨hun₂, sh₂, hown₂, hok₂, hn, hmask, hlt, hentries, hsame⟩
    have hun : Unchanged s s₂ := hun₁.trans hun₂ hok₁.shape
    apply meets_getOwnShape hown₂
    apply ((valsReserve_spec hok₂ (sh₂.n + 1)).imp_error ?_).bind
    · rintro _ s₃ ⟨hres, hok₃, hfit⟩
      have hown₃ : s₃.t.shape = .own sh₂ := hres.shape.trans hown₂
      have hun₃ : Unchanged s s₃ := hun.trans (hres.unchanged hok₂.shape) hok₂.shape
      have habsent₃ := hun₃.absent sh sh₂ hok.shape hok₃.shape key habsent
      exact (appendEntry_spec hok₃ hown₃ hlt (by omega) (by omega) hk hc habsent₃ w).mono
        (fun _ _ _ => trivial) fun _ _ h => h.elim
    · -- the values are full, so the rebuild has dropped nothing
      rintro _ _ ⟨-, rfl, -, hneed, hcap⟩
      rw [hsame] at hneed
      have heq : sh₁.n = sh.n := by omega
      refine ⟨⟨hun.toFrame, ⟨sh₂, hok₂⟩, (hre.entries heq).trans hentries hok₁.shape⟩, ⟨sh₂, hown₂, hok₂,
        ?_, Or.inr ⟨by rw [hsame]; omega, hcap⟩⟩, hown, hok, hre.kept.mp heq, Or.inr ⟨by omega, ?_⟩⟩
      rotate_left
      · rw [hsame, hvalsLen, hn, heq] at hcap
        exact hcap
      obtain hhalf' | hall := hre.settled heq
      · left
        omega
      · right
        intro p hp
        rw [hn] at hp
        rw [((hentries sh₁ sh₂ hok₁.shape hok₂.shape).2 p hp).2]
        exact hall p hp
  · -- the keys are full
    rintro _ _ ⟨-, rfl, hlarge, hfull⟩
    have heq : sh₁.n = sh.n := by omega
    exact ⟨⟨hun₁.toFrame, ⟨sh₁, hok₁⟩, hre.entries heq⟩, ⟨sh₁, hown₁, hok₁, hre.settled heq,
      Or.inl ⟨hfull, hlarge⟩⟩, hown, hok, hre.kept.mp heq, Or.inl ⟨by omega, by omega⟩⟩

/-- The private shape stays. -/
theorem tabOwn_own (hown : s.t.shape = .own sh) : Returns tabOwn s () s := by
  unfold tabOwn
  apply returns_get_bind
  rw [hown]
  rfl

/-- An insertion into a shared shape of few keys does not raise. -/
theorem tabInsertNew_raises (hok : HashOk s sh none) (hk : Normal k) (hc : canon k = some key)
    (habsent : sh.pos key = none) (w : Slot) :
    Meets (tabInsertNew k w (luaHash k)) s (fun _ _ => True)
      (fun _ s' => (SameLayout s s' ∧ ∃ sh', Full s' sh') ∧ Crowded s) := by
  unfold tabInsertNew
  apply meets_get_bind
  cases hshape : s.t.shape with
  | own sh₀ =>
    obtain rfl := hok.own_eq hshape
    exact (tabInsertOwned_raises hok hshape hk hc habsent w).imp_error
      fun _ _ h => ⟨⟨h.1, h.2.1⟩, s, _, tabOwn_own hshape, h.2.2⟩
  | shared r =>
    apply meets_getShape hok.shape
    split
    · rename_i hfew
      refine (tabInsertShared_spec hok hshape hk hc habsent w).mono (fun _ _ _ => trivial) ?_
      intro _ _ h
      have hlarge := h.large sh hok.shape
      have hsmall := hfew.2
      unfold shapeShareMax at hsmall
      omega
    · obtain ⟨_, s₁, hret, hun, sh₁, hown₁, hok₁, -, hentries⟩ := (tabOwn_spec hok).returns
      apply hret.bind_meets
      have habsent₁ := hun.absent sh sh₁ hok.shape hok₁.shape key habsent
      have hsame : SameLayout s s₁ := ⟨hun.toFrame, ⟨sh₁, hok₁⟩, hentries⟩
      exact (tabInsertOwned_raises hok₁ hown₁ hk hc habsent₁ w).mono (fun _ _ _ => trivial)
        fun _ _ h => ⟨⟨hsame.trans h.1, h.2.1⟩, s₁, sh₁, hret, h.2.2⟩

/-- Without room, every insertion raises. -/
theorem Full.tabInsertOwned (h : Full s sh) (k : Val) (w : Slot) (full : UInt32) :
    Meets (Table.tabInsertOwned k w full) s (fun _ _ => False) (fun _ _ => True) := by
  unfold Table.tabInsertOwned
  apply (rebuildIfFull_spec h.ok h.own).bind_safe
  rintro _ s₁ ⟨hun₁, sh₁, hown₁, hok₁, -, hre⟩
  have heq := hre.kept.mpr h.settled
  have hkeysLen := hre.keysLen
  have hvalsLen := hre.valsLen
  obtain ⟨hkeys, hlarge⟩ | ⟨hvals, hcap⟩ := h.full
  · have hgrow : Meets growKeys s₁ (fun _ _ => False) (fun _ _ => True) := by
      unfold growKeys
      apply meets_getOwnShape hown₁
      rw [if_neg (by omega), if_pos (by omega)]
      exact meets_throw trivial
    exact hgrow.bind fun _ _ h => h.elim
  · apply ((growKeys_spec hok₁ hown₁).imp_error fun _ _ _ => trivial).bind
    rintro _ s₂ ⟨-, sh₂, hown₂, hok₂, hn, -, -, -, hsame⟩
    apply meets_getOwnShape hown₂
    have hreserve : Meets (valsReserve (sh₂.n + 1)) s₂ (fun _ _ => False) (fun _ _ => True) := by
      unfold valsReserve
      apply meets_get_bind
      dsimp only
      rw [hsame, hvalsLen, hn, heq, if_neg (by omega), if_pos hcap]
      exact meets_throw trivial
    exact hreserve.bind fun _ _ h => h.elim

/-- So does every insertion of a key that is not a string, where only the shape has to become private. -/
theorem Crowded.tabInsertNew (h : Crowded s) (hok : HashOk s sh none) (hk : k.isStr = false) (w : Slot)
    (full : UInt32) : Meets (Table.tabInsertNew k w full) s (fun _ _ => False) (fun _ _ => True) := by
  obtain ⟨s₁, sh₁, hret, hfull⟩ := h
  unfold Table.tabInsertNew
  apply meets_get_bind
  cases hshape : s.t.shape with
  | own sh₀ =>
    have hsame : Ensures tabOwn s (fun _ s' => s' = s) := (tabOwn_own hshape).meets rfl
    obtain rfl := hret.of_meets hsame
    exact hfull.tabInsertOwned k w full
  | shared r =>
    apply meets_getShape hok.shape
    rw [if_neg (by simp [hk])]
    exact hret.bind_meets (hfull.tabInsertOwned k w full)

/-! ## Stores to the hash part -/

/-- A store that raises has found no room, and keeps the layout. -/
theorem setFound_raises (hok : HashOk s sh none) (hk : Normal k) (hc : canon k = some key) (v : Val) :
    Meets (setFound (sh.pos key) k v (luaHash k)) s (fun _ _ => True)
      (fun _ s' => SameLayout s s' ∧ ∃ sh', Full s' sh') := by
  unfold setFound
  cases hp : sh.pos key with
  | some i => exact (setVal_found hok hp v).mono (fun _ _ _ => trivial) fun _ _ h => h.elim
  | none =>
    dsimp only
    split
    · exact meets_pure trivial
    · exact (tabInsertNew_raises hok hk hc hp (.val v)).imp_error fun _ _ h => h.1

theorem setFoundF_raises (hok : HashOk s sh none) (hk : Normal k) (hc : canon k = some key) (f : F64) :
    Meets (setFoundF (sh.pos key) k f (luaHash k)) s (fun _ _ => True)
      (fun _ s' => SameLayout s s' ∧ ∃ sh', Full s' sh') := by
  unfold setFoundF
  cases hp : sh.pos key with
  | some i =>
    apply (setVal_written hok (hok.pos_lt_vals hp) .mark).bind_safe
    intro _ s₁ h
    exact (setFval_spec h.ok (h.ok.pos_lt_vals hp) h.slot).mono (fun _ _ _ => trivial)
      fun _ _ h => h.elim
  | none =>
    apply (((tabInsertNew_spec hok hk hc hp .mark).and (tabInsertNew_raises hok hk hc hp .mark)).mono
      (fun _ _ h => h.1) fun _ _ h => h.2.1).bind
    intro _ s₁ h
    obtain ⟨sh₁, n, hok₁, hn, hpos, hslot⟩ := h.last
    apply meets_getShape hok₁.shape
    have hlast : sh₁.n - 1 = n := by omega
    rw [hlast]
    exact (setFval_spec hok₁ (hok₁.pos_lt_vals hpos) hslot).mono (fun _ _ _ => trivial)
      fun _ _ h => h.elim

/-- A store to the hash part that raises leaves the table as it was. -/
theorem tabSetHash_raises (hok : HashOk s sh none) (hk : Normal k) (hc : canon k = some key) (v : Val) :
    Meets (tabSetHash k v) s (fun _ _ => True) (fun _ s' => SameLayout s s' ∧ ∃ sh', Full s' sh') :=
  meets_find hok hc (setFound_raises hok hk hc v)

theorem tabSetHashStr_raises {o : ℕ} {bytes : List UInt8} (hok : HashOk s sh none) (v : Val) :
    Meets (tabSetHashStr (.str o bytes) (luaHash (.str o bytes)) v) s (fun _ _ => True)
      (fun _ s' => SameLayout s s' ∧ ∃ sh', Full s' sh') :=
  meets_findStr hok (setFound_raises hok (show Normal (.str o bytes) from trivial) rfl v)

theorem tabSetFHash_raises (hok : HashOk s sh none) (hk : Normal k) (hc : canon k = some key) (f : F64) :
    Meets (tabSetFHash k f) s (fun _ _ => True) (fun _ s' => SameLayout s s' ∧ ∃ sh', Full s' sh') :=
  meets_find hok hc (setFoundF_raises hok hk hc f)

theorem tabSetFHashStr_raises {o : ℕ} {bytes : List UInt8} (hok : HashOk s sh none) (f : F64) :
    Meets (tabSetFHashStr (.str o bytes) (luaHash (.str o bytes)) f) s (fun _ _ => True)
      (fun _ s' => SameLayout s s' ∧ ∃ sh', Full s' sh') :=
  meets_findStr hok (setFoundF_raises hok (show Normal (.str o bytes) from trivial) rfl f)

/-! ## Stores to the array part -/

/-- The store is an append to an array part that is full and mostly holes, which is moved to the hash
part first. -/
structure DemotesAt (s : TabState) (i : Int64) (w : Slot) : Prop where
  /-- The key is the one after the array part. -/
  next : i.toInt = s.t.alen + 1
  /-- What is stored is not nil. -/
  value : w.isNull = false
  /-- The array part may still grow. -/
  small : s.t.alen < arrMax
  /-- It is full and mostly holes. -/
  holes : mostlyHoles s.t = some true

/-- The raw store starts to move the array part. -/
def Demotes (s : TabState) : RawWrite → Prop
  | .set k v => ∃ i, asArrKey k = some i ∧ DemotesAt s i (.val v)
  | .setIk i v => DemotesAt s i (.val v)
  | .setIkF i _ => DemotesAt s i .mark
  | _ => False

variable {x : Int64}

/-- Without such a move, the array part takes the store or declines it, and does not raise. -/
theorem tabSetArr_stays (hok : TabOk s none) (hno : ¬ DemotesAt s x w) :
    Ensures (tabSetArr x w) s (fun b s' => b = false → s' = s) := by
  unfold tabSetArr
  apply meets_get_bind
  dsimp only
  split
  · rename_i hin
    apply ((setInArr_spec (P := False) hok hin w).imp_error fun _ _ h => h).bind
    intro _ s' _
    exact meets_pure (by simp)
  split
  · rename_i hnext
    unfold arrAppend
    apply meets_get_bind
    dsimp only
    split
    · exact meets_pure fun _ => rfl
    rename_i hnull
    have hw : w.isNull = false := by simpa using hnull
    split
    · exact meets_pure fun _ => rfl
    rename_i hmax
    obtain ⟨b, hb⟩ := mostlyHoles_spec hok.arr
    apply meets_orStuck hb
    cases b with
    | true => exact absurd ⟨hnext, hw, by omega, hb⟩ hno
    | false =>
      rw [if_neg (by simp)]
      refine (arrPush_stored (P := False) hok (by omega) hw hnext fun h => h.elim).imp ?_
      rintro _ _ ⟨rfl, -⟩
      simp
  · exact meets_pure fun _ => rfl

/-- With such a move, the array part is empty afterwards, whatever else happens. -/
theorem tabSetArr_empties (hok : TabOk s none) (hd : DemotesAt s x w) :
    Meets (tabSetArr x w) s (fun b s' => b = false ∧ TabOk s' none ∧ s'.t.alen = 0)
      (fun _ s' => TabOk s' none ∧ s'.t.alen = 0) := by
  obtain ⟨hnext, hw, hmax, hb⟩ := hd
  have hout : ¬ inArr s.t x = true := by
    rw [inArr_iff]
    omega
  unfold tabSetArr
  apply meets_get_bind
  rw [if_neg hout, if_pos hnext]
  unfold arrAppend
  apply meets_get_bind
  rw [if_neg (by simp [hw]), if_neg (by omega)]
  apply meets_orStuck hb
  rw [if_pos rfl]
  apply ((tabDemote_spec hok).imp_error fun _ _ h => ⟨h.2.1, h.2.2.2⟩).bind
  rintro _ s' ⟨hok', -, hzero, -⟩
  exact meets_pure ⟨rfl, hok', hzero⟩

/-- An array part that is mostly holes has one. -/
theorem exists_hole (hok : TabOk s none) (h : mostlyHoles s.t = some true) :
    ∃ j < s.t.alen, s.tget (arrKey j) = .nil := by
  have hroom := hok.arr.room
  have hsmall := hok.arr.small
  obtain ⟨j, hj, hnull⟩ : ∃ j < s.t.alen, (s.t.arrSlot j).isNull = true := by
    unfold mostlyHoles at h
    cases ha : s.t.arr with
    | none =>
      rw [ha] at h
      cases h
    | some a =>
      rw [ha, lengthOf_some] at hroom
      rw [ha] at h
      dsimp only at h
      split at h
      · unfold arrHoles at h
        rw [if_pos hroom, Option.map_some, Option.some.injEq, decide_eq_true_iff] at h
        have hcount : 0 < (a.take s.t.alen).countP Slot.isNull := by omega
        obtain ⟨w, hw, hnull⟩ := List.countP_pos_iff.mp hcount
        obtain ⟨j, hj, hget⟩ := List.getElem_of_mem hw
        rw [List.length_take] at hj
        refine ⟨j, by omega, ?_⟩
        unfold LuaTable.arrSlot
        rw [ha, Option.getD_some, List.getD_eq_getElem a _ (by omega)]
        rw [List.getElem_take] at hget
        rw [hget]
        exact hnull
      · cases h
  refine ⟨j, hj, ?_⟩
  rw [tget_arrKey_of_lt hj (by omega)]
  unfold LuaTable.arrValue
  rw [of_decide_eq_true hnull]

/-- A move of the array part is seen, as there is a hole that the length no longer passes. -/
theorem not_sameReads_of_empty (hok : TabOk s none) (hok' : TabOk s' none)
    (h : mostlyHoles s.t = some true) (hzero : s'.t.alen = 0) : ¬ SameReads s s' := by
  intro hsame
  have hsmall := hok.arr.small
  obtain ⟨j, hj, hnil⟩ := exists_hole hok h
  have hread : ∀ {s}, TabOk s none → tabGetRaw s (makeInt ((j : ℤ) + 1)) = some (s.tget (arrKey j)) :=
    fun hok => tabGetRaw_spec hok _
  have hnil' : s'.hget (arrKey j) = .nil := by
    have hget := hsame.get (makeInt ((j : ℤ) + 1))
    rw [hread hok, hread hok', hnil, tget_arrKey_of_le (by omega) (by omega)] at hget
    exact Option.some.inj hget
  obtain ⟨n, hn, hle, -⟩ := tabLen_spec hok
  have hn' : tabLen s' = some n := by
    rw [hsame.len]
    exact hn
  have hjn := tabLen_le hok' hn' (by omega) hnil'
  omega

/-! ## Raw stores that raise -/

theorem Overflow.tabOk {e : Fault} (h : Overflow e s s') (hok : TabOk s none) : TabOk s' none :=
  ⟨h.ok, h.toFrame.arrOk hok.arr⟩

/-- A store that raises after a step that may have emptied the array part. -/
theorem raises_of_demotesAt {m : TabM α} {w : Slot} (hok : TabOk s none)
    (hempties : DemotesAt s x w → Meets m s (fun _ _ => True) fun _ s' => TabOk s' none ∧ s'.t.alen = 0)
    (hstays : ¬ DemotesAt s x w → Meets m s (fun _ _ => True) fun _ s' => SameLayout s s') :
    Meets m s (fun _ _ => True) fun _ s' => SameReads s s' ↔ ¬ DemotesAt s x w := by
  obtain ⟨sh, hash⟩ := hok.hash
  by_cases hd : DemotesAt s x w
  · refine (hempties hd).imp_error fun _ s' h => iff_of_false ?_ (not_not.mpr hd)
    exact not_sameReads_of_empty hok h.1 hd.holes h.2
  · exact (hstays hd).imp_error fun _ s' h => iff_of_true (h.sameReads hash) hd

/-- A raising store under an integer key loses something when it empties the array part. -/
theorem tabSetIk_raises (hok : TabOk s none) (x : Int64) (v : Val) :
    Meets (tabSetIk x v) s (fun _ _ => True)
      (fun _ s' => SameReads s s' ↔ ¬ DemotesAt s x (.val v)) := by
  unfold tabSetIk
  apply raises_of_demotesAt hok
  · intro hd
    apply (tabSetArr_empties hok hd).bind
    rintro _ s₁ ⟨rfl, hok₁, hzero⟩
    obtain ⟨sh₁, hash₁⟩ := hok₁.hash
    exact (tabSetHash_spec hash₁ (normal_int x) rfl v).mono (fun _ _ _ => trivial)
      fun _ _ h => ⟨h.tabOk hok₁, h.alen.trans hzero⟩
  · intro hd
    obtain ⟨sh, hash⟩ := hok.hash
    apply (tabSetArr_stays hok hd).bind_safe
    intro b s₁ h
    cases b with
    | true => exact meets_pure trivial
    | false =>
      obtain rfl := h rfl
      exact (tabSetHash_raises hash (normal_int x) rfl v).imp_error fun _ _ h => h.1

theorem tabsetIkF_raises (hok : TabOk s none) (x : Int64) (f : F64) :
    Meets (tabsetIkF x f) s (fun _ _ => True)
      (fun _ s' => SameReads s s' ↔ ¬ DemotesAt s x .mark) := by
  unfold tabsetIkF
  apply raises_of_demotesAt hok
  · intro hd
    apply (tabSetArr_empties hok hd).bind
    rintro _ s₁ ⟨rfl, hok₁, hzero⟩
    obtain ⟨sh₁, hash₁⟩ := hok₁.hash
    exact (tabSetFHash_spec hash₁ (normal_int x) rfl f).mono (fun _ _ _ => trivial)
      fun _ _ h => ⟨h.tabOk hok₁, h.alen.trans hzero⟩
  · intro hd
    obtain ⟨sh, hash⟩ := hok.hash
    apply (((tabSetArr_stays hok hd).and (tabSetArr_spec hok x .mark)).imp_error
      fun _ _ h => h.1.elim).bind
    rintro b s₁ ⟨h, hset⟩
    cases b with
    | true =>
      have hset : ArrSet (StoreClean s x .mark) s s₁ x .mark := hset
      have hin := hset.kept rfl
      exact (setFarr_spec hset.arr (arrIndex_lt hin) (hset.slot hin)).mono (fun _ _ _ => trivial)
        fun _ _ h => h.elim
    | false =>
      obtain rfl := h rfl
      exact (tabSetFHash_raises hash (normal_int x) rfl f).imp_error fun _ _ h => h.1

/-- A store to the hash part never starts a move. -/
theorem tabSetHash_keeps (hok : TabOk s none) (hk : Normal k) (hc : canon k = some key) (v : Val) :
    Meets (tabSetHash k v) s (fun _ _ => True) (fun _ s' => SameReads s s') := by
  obtain ⟨sh, hash⟩ := hok.hash
  exact (tabSetHash_raises hash hk hc v).imp_error fun _ _ h => h.1.sameReads hash

/-- So does one under any key with the value of an integer. -/
theorem tabSet_raises (hok : TabOk s none) (k v : Val) :
    Meets (tabSet k v) s (fun _ _ => True)
      (fun _ s' => SameReads s s' ↔ ¬ ∃ i, asArrKey k = some i ∧ DemotesAt s i (.val v)) := by
  have hno : asArrKey k = none → ¬ ∃ i, asArrKey k = some i ∧ DemotesAt s i (.val v) := by
    rintro hnone ⟨i, hi, -⟩
    rw [hnone] at hi
    cases hi
  cases hc : canon k with
  | none =>
    refine (tabSet_none hc v).mono (fun _ _ h => h.elim) ?_
    rintro _ _ ⟨-, rfl⟩
    have hnone : asArrKey k = none := by
      -- an integer key may empty the array part first, any other key does not reach it
      cases hi : asArrKey k with
      | none => rfl
      | some i =>
        rw [canon_of_asArrKey hi] at hc
        cases hc
    exact ⟨fun _ => hno hnone, fun _ => SameReads.of_shape rfl rfl⟩
  | some key =>
    unfold tabSet
    split
    · rename_i hstr
      cases k with
      | str o x =>
        have hk : Normal (.str o x) := trivial
        exact (tabSetHash_keeps hok hk hc v).imp_error fun _ _ h =>
          ⟨fun _ => hno rfl, fun _ => h⟩
      | _ => cases hstr
    split
    · rename_i hnil
      rw [hnil] at hc
      cases hc
    split
    · rename_i hnan
      cases k with
      | float f =>
        rw [canon_of_isNaN hnan] at hc
        cases hc
      | _ => cases hnan
    cases hi : asArrKey k with
    | some i =>
      refine (tabSetIk_raises hok i v).imp_error fun _ s' h => h.trans (not_congr ?_)
      constructor
      · exact fun hd => ⟨i, rfl, hd⟩
      · rintro ⟨_, heq, hd⟩
        obtain rfl := Option.some.inj heq
        exact hd
    | none =>
      refine (tabSetHash_keeps hok (normal_of_asArrKey hc hi) hc v).imp_error fun _ _ h => ?_
      rw [hi] at hno
      exact ⟨fun _ => hno rfl, fun _ => h⟩

/-- What a raw store that raises leaves. -/
theorem RawWrite.run_raises (hok : TabOk s none) (op : RawWrite) (hkey : op.key ≠ none) :
    Meets op.run s (fun _ _ => True) (fun _ s' => SameReads s s' ↔ ¬ Demotes s op) := by
  obtain ⟨sh, hash⟩ := hok.hash
  cases op with
  | set k v => exact tabSet_raises hok k v
  | setIk i v => exact tabSetIk_raises hok i v
  | setIkF i f => exact tabsetIkF_raises hok i f
  | setStr o x v =>
    exact (tabSetHashStr_raises hash v).imp_error fun _ _ h =>
      ⟨fun _ => id, fun _ => h.1.sameReads hash⟩
  | setStrF o x f =>
    exact (tabSetFHashStr_raises hash f).imp_error fun _ _ h =>
      ⟨fun _ => id, fun _ => h.1.sameReads hash⟩
  | append v => exact absurd rfl hkey
  | insert pos v => exact absurd rfl hkey
  | remove pos => exact absurd rfl hkey

/-- After a raw store to a table of a program that raised an error, everything read of the table is as
it was before, if and only if the store did not start to move the array part to the hash part. -/
theorem raise_keeps_iff (w : World) (hw : w.Reachable) (i : ℕ) (t : LuaTable) (ht : w.tables[i]? = some t)
    (op : RawWrite) (hkey : op.key ≠ none) (e : Fault) (w' : World)
    (hs : w.step (.write i op) = some (.error e, w')) :
    ∃ t', w'.tables[i]? = some t' ∧
      (SameReads (w.state t) (w'.state t') ↔ ¬ Demotes (w.state t) op) := by
  have hok := hw.ok.tables t (List.mem_of_getElem? ht)
  have hlt : i < w.tables.length := (List.getElem?_eq_some_iff.mp ht).1
  unfold World.step World.onTable at hs
  simp only [ht] at hs
  generalize hrun : (op.run.run (w.state t) : Except Fault Unit × TabState) = res at hs
  obtain ⟨r, s'⟩ := res
  cases hs
  exact ⟨s'.t, List.getElem?_set_self hlt, (RawWrite.run_raises hok op hkey).of_error hrun⟩

/-- A nil key raises, and moves nothing. -/
theorem raise_keeps_iff_mixed :
    ∃ e w', mixed.step (.write 0 (.set .nil (.int 1))) = some (.error e, w') ∧
      ∃ t', w'.tables[0]? = some t' ∧
        (SameReads (mixed.state mixedTable) (w'.state t') ↔ ¬ Demotes (mixed.state mixedTable) (.set .nil (.int 1))) := by
  have hs : mixed.step (.write 0 (.set .nil (.int 1))) = some (.error (.raised "table index is nil"), mixed) := rfl
  exact ⟨_, _, hs, raise_keeps_iff mixed mixed_reachable 0 _ mixedTable_eq (.set .nil (.int 1))
    (by simp [RawWrite.key]) _ _ hs⟩

/-! ## A table that is too large to take its array part back -/

/-- `{1, 2, 3}`, after its first two values are removed. -/
def holed : World :=
  (World.init.run [.newArr [.int 1, .int 2, .int 3], .write 0 (.setIk 1 .nil), .write 0 (.setIk 2 .nil)]).getD
    World.init

theorem holed_reachable : holed.Reachable := by
  have hrun : World.init.run [.newArr [.int 1, .int 2, .int 3], .write 0 (.setIk 1 .nil),
      .write 0 (.setIk 2 .nil)] = some holed := rfl
  apply World.Reachable.init.of_run _ hrun
  intro op hop w
  fin_cases hop
  · change 3 < 2^31
    omega
  · trivial
  · trivial

/-- The array part `{nil, nil, 3}`. -/
def holedArr : List Slot := [.val .nil, .val .nil, .val (.int 3)]

/-- The table with `m` more keys, which are large integers. All of them are in the hash part, and nothing
else is. -/
structure Filled (s : TabState) (m : ℕ) : Prop where
  /-- The hash part has no more keys. -/
  ok : ∃ sh, HashOk s sh none ∧ sh.n ≤ m
  /-- The array part. -/
  arr : s.t.arr = some holedArr
  /-- It is full. -/
  alen : s.t.alen = 3
  /-- The keys. -/
  live : ∀ j, 2^25 ≤ j → j < 2^25 + m → s.hget (arrKey j) ≠ .nil

variable {m : ℕ}

/-- The next key is stored, or there is no room. -/
theorem Filled.step (h : Filled s m) (hm : m ≤ 2^24) :
    Meets (tabSetIk (Int64.ofInt (((2^25 + m : ℕ) : ℤ) + 1)) (.int 1)) s (fun _ s' => Filled s' (m + 1))
      (fun e s' => e ≠ .stuck ∧ Filled s' m ∧ ∃ sh', Full s' sh') := by
  obtain ⟨sh, hash, hn⟩ := h.ok
  have halen := h.alen
  have hto := toInt_ofNat (n := 2^25 + m + 1) (by omega)
  push_cast at hto
  have hsparse : (s.t.alen : ℤ) + 1 < (Int64.ofInt (((2^25 + m : ℕ) : ℤ) + 1)).toInt := by
    push_cast
    rw [hto]
    omega
  unfold tabSetIk
  apply (tabSetArr_sparse hsparse (.val (.int 1))).bind_safe
  rintro _ _ ⟨rfl, rfl⟩
  have hset := tabSetHash_spec hash (normal_int (Int64.ofInt (((2^25 + m : ℕ) : ℤ) + 1))) rfl (.int 1)
  have hraise := tabSetHash_raises hash (normal_int (Int64.ofInt (((2^25 + m : ℕ) : ℤ) + 1))) rfl (.int 1)
  refine (hset.and hraise).mono ?_ ?_
  · rintro _ s' ⟨hs, -⟩
    obtain ⟨sh', hash'⟩ := hs.ok
    have hcount := hs.count sh sh' hash.shape hash'.shape
    refine ⟨⟨sh', hash', by omega⟩, hs.arr.trans h.arr, hs.alen.trans h.alen, fun j hj hlt => ?_⟩
    obtain hjm | rfl := Nat.lt_succ_iff_lt_or_eq.mp (show j < 2^25 + m + 1 from hlt)
    · rw [hs.other]
      · exact h.live j hj hjm
      · intro heq
        have hinj := arrKey_inj (by omega) (by omega) heq
        omega
    · rw [show s'.hget (arrKey (2^25 + m)) = .int 1 from hs.get]
      simp
  · rintro e s' ⟨hover, hsame, hfull⟩
    obtain ⟨sh', hash'⟩ := hsame.ok
    have hn' := (hsame.entries sh sh' hash.shape hash'.shape).1
    refine ⟨?_, ⟨⟨sh', hash', by omega⟩, hsame.arr.trans h.arr, hsame.alen.trans h.alen, ?_⟩, hfull⟩
    · rw [hover.error]
      simp [tableOverflow]
    · intro j hj hlt
      rw [hsame.hget hash]
      exact h.live j hj hlt

theorem Filled.le (h : Filled s m) (hm : m ≤ 2^25) (hash : HashOk s sh none) : m ≤ sh.n := by
  have hle := run_le hash (show 2^25 + m < 2^63 by omega) h.live
  omega

/-- The hash part does not have the key 3. -/
theorem Filled.absent (h : Filled s m) (hm : m ≤ 2^25) (hash : HashOk s sh none) :
    sh.pos (arrKey 2) = none := by
  by_contra hpos
  have hnew : arrKey 2 ∉ (Finset.Ico (2^25) (2^25 + m)).image arrKey := by
    intro hmem
    obtain ⟨j, hj, heq⟩ := Finset.mem_image.mp hmem
    rw [Finset.mem_Ico] at hj
    have hinj := arrKey_inj (by omega) (by omega) heq
    omega
  obtain ⟨sh', hash', hn⟩ := h.ok
  obtain rfl : sh' = sh := by
    have hs := hash'.shape
    rw [hash.shape] at hs
    exact (Option.some.inj hs).symm
  have hcard := card_keys_le sh' (insert (arrKey 2) ((Finset.Ico (2^25) (2^25 + m)).image arrKey)) ?_
  · rw [Finset.card_insert_of_notMem hnew, card_arrKeys (by omega)] at hcard
    omega
  · intro key hkey hp
    obtain rfl | hmem := Finset.mem_insert.mp hkey
    · exact hpos hp
    · obtain ⟨j, hj, rfl⟩ := Finset.mem_image.mp hmem
      rw [Finset.mem_Ico] at hj
      exact h.live j hj.1 hj.2 (hget_of_absent hash.shape hp)

/-- The room is that of the hash part alone. -/
theorem Full.of_hashSame (h : HashSame s s') (hf : Full s sh) : Full s' sh where
  own := by
    rw [h.shape]
    exact hf.own
  ok := h.hashOk hf.ok
  settled := by
    unfold Settled
    simp only [h.value]
    exact hf.settled
  full := by
    rw [h.vals]
    exact hf.full

/-- Without room, a store of a new key raises. -/
theorem Full.tabSetHash (h : Full s sh) (hk : Normal k) (hc : canon k = some key)
    (habsent : sh.pos key = none) (hv : v ≠ .nil) :
    Meets (Table.tabSetHash k v) s (fun _ _ => False) (fun _ s' => SameLayout s s') := by
  have hraise : Meets (Table.tabSetHash k v) s (fun _ _ => False) (fun _ _ => True) := by
    unfold Table.tabSetHash
    apply meets_getShape h.ok.shape
    have hfind := tabFind_spec h.ok.wf k
    rw [hc, Option.bind_some, habsent] at hfind
    apply meets_orStuck hfind
    unfold setFound
    rw [if_neg hv]
    unfold tabInsertNew
    apply meets_get_bind
    rw [h.own]
    exact h.tabInsertOwned k (.val v) (luaHash k)
  exact (hraise.and (tabSetHash_raises h.ok hk hc v)).mono (fun _ _ h => h.1) fun _ _ h => h.2.1

/-- An append to the array part moves it out, and the value 3 finds no room. -/
theorem Filled.loses (h : Filled s m) (hm : m ≤ 2^25) (hf : Full s sh) (v : Val) (hv : v ≠ .nil) :
    Meets (tabSetIk 4 v) s (fun _ _ => False)
      (fun _ s' => s'.t.alen = 0 ∧ s'.hget (arrKey 2) = .nil) := by
  have halen := h.alen
  have habsent := h.absent hm hf.ok
  have hholes : mostlyHoles s.t = some true := by
    unfold mostlyHoles
    rw [h.arr, h.alen]
    rfl
  have hdemote : Meets tabDemote s (fun _ _ => False)
      (fun _ s' => s'.t.alen = 0 ∧ s'.hget (arrKey 2) = .nil) := by
    unfold tabDemote
    apply meets_get_bind
    rw [if_neg (by omega)]
    apply meets_orStuck h.arr
    apply meets_modify_bind
    rw [h.alen]
    have hsame : HashSame s { s with t := { s.t with alen := 0, arr := none, farr := none } } :=
      ⟨rfl, rfl, rfl, rfl⟩
    have hfull := Full.of_hashSame hsame hf
    -- the two holes are passed, and the third slot raises
    have hslot : Meets (demoteSlot holedArr s.t.farr 2)
        { s with t := { s.t with alen := 0, arr := none, farr := none } } (fun _ _ => False)
        (fun _ s' => s'.t.alen = 0 ∧ s'.hget (arrKey 2) = .nil) := by
      refine (hfull.tabSetHash (k := makeInt ((2 : ℕ) + 1)) (v := .int 3) (normal_int _) rfl habsent
        (by simp)).imp_error fun _ s' hl => ⟨hl.alen, ?_⟩
      rw [hl.hget hfull.ok, hget_of_absent hfull.ok.shape habsent]
    change Meets (demoteSlot holedArr s.t.farr 2 >>= fun _ => demoteFrom holedArr s.t.farr 0 3) _ _ _
    exact hslot.bind fun _ _ h => h.elim
  have hout : ¬ inArr s.t 4 = true := by
    rw [inArr_iff, halen]
    decide
  have hnull : ¬ (Slot.val v).isNull = true := by
    unfold Slot.isNull
    simpa using hv
  unfold tabSetIk tabSetArr
  apply Meets.bind (Q := fun _ _ => False)
  · apply meets_get_bind
    rw [if_neg hout, if_pos (by rw [halen]; rfl)]
    unfold arrAppend
    apply meets_get_bind
    rw [if_neg hnull, if_neg (by rw [halen]; decide)]
    apply meets_orStuck hholes
    rw [if_pos rfl]
    exact hdemote.bind fun _ _ h => h.elim
  · exact fun _ _ h => h.elim

/-- A program that has filled the table with `m` keys. -/
def Fills (w : World) (m : ℕ) : Prop :=
  w.Reachable ∧ ∃ t, w.tables[0]? = some t ∧ Filled (w.state t) m

/-- A program that has filled the table to the end. -/
def FillsUp (w : World) (m : ℕ) : Prop :=
  w.Reachable ∧ ∃ t, w.tables[0]? = some t ∧ Filled (w.state t) m ∧ ∃ sh, Full (w.state t) sh

/-- One more value fits, or the hash part is full. -/
theorem Fills.step {w : World} (h : Fills w m) (hm : m ≤ 2^24) :
    (∃ w', Fills w' (m + 1)) ∨ ∃ w', FillsUp w' m := by
  obtain ⟨hreach, t, ht, hfilled⟩ := h
  have hlt : 0 < w.tables.length := (List.getElem?_eq_some_iff.mp ht).1
  have hstep := hfilled.step hm
  generalize hx : Int64.ofInt (((2^25 + m : ℕ) : ℤ) + 1) = x at hstep
  generalize hrun : ((tabSetIk x (.int 1)).run (w.state t) : Except Fault Unit × TabState) = res
  obtain ⟨r, s'⟩ := res
  have hs : w.step (.write 0 (.setIk x (.int 1))) = some (r, ⟨s'.shapes, w.tables.set 0 s'.t⟩) := by
    unfold World.step World.onTable RawWrite.run
    simp only [ht, hrun]
  have hlegal : (WorldOp.write 0 (.setIk x (.int 1))).Legal w := trivial
  have hget : (w.tables.set 0 s'.t)[0]? = some s'.t := List.getElem?_set_self hlt
  cases r with
  | ok _ =>
    left
    exact ⟨_, hreach.step hlegal hs (by simp), s'.t, hget, hstep.of_ok hrun⟩
  | error e =>
    right
    obtain ⟨hne, hfilled', hfull⟩ := hstep.of_error hrun
    exact ⟨_, hreach.step hlegal hs (by simpa using hne), s'.t, hget, hfilled', hfull⟩

/-- The hash part has room for `2^24` keys at most, so some store is the last. -/
theorem exists_fillsUp : ∃ w m, m ≤ 2^24 ∧ FillsUp w m := by
  have hstart : Fills holed 0 := by
    refine ⟨holed_reachable, _, rfl, ⟨?_, rfl, rfl, fun j hj hlt => by omega⟩⟩
    obtain ⟨sh, hash⟩ := (holed_reachable.ok.tables _ List.mem_cons_self).hash
    refine ⟨sh, hash, ?_⟩
    obtain rfl : rootShape.toShape = sh := Option.some.inj hash.shape
    exact Nat.le_refl 0
  have hfill : ∀ m, m ≤ 2^24 + 1 → (∃ w, Fills w m) ∨ ∃ w m, m ≤ 2^24 ∧ FillsUp w m := by
    intro m
    induction m with
    | zero => exact fun _ => Or.inl ⟨holed, hstart⟩
    | succ m ih =>
      intro hm
      obtain ⟨w, hw⟩ | hup := ih (by omega)
      · obtain hnext | ⟨w', hup⟩ := hw.step (by omega)
        · exact Or.inl hnext
        · exact Or.inr ⟨w', m, by omega, hup⟩
      · exact Or.inr hup
  obtain ⟨w, hreach, t, ht, hfilled⟩ | hup := hfill (2^24 + 1) (Nat.le_refl _)
  · obtain ⟨sh, hash, -⟩ := hfilled.ok
    have hle := hfilled.le (by omega) hash
    have hvals := Nat.le_trans hash.vals hash.small
    unfold valsMax at hvals
    omega
  · exact hup

/-- A store that raises can lose a value: the key 3 of `{nil, nil, 3}`, in a table whose hash part is
full. -/
theorem not_raise_keeps :
    ¬ ∀ (w : World), w.Reachable → ∀ (i : ℕ) (t : LuaTable), w.tables[i]? = some t →
      ∀ (op : RawWrite), op.key ≠ none → ∀ (e : Fault) (w' : World),
        w.step (.write i op) = some (.error e, w') → ∀ t', w'.tables[i]? = some t' →
          SameReads (w.state t) (w'.state t') := by
  intro hkeeps
  obtain ⟨w, m, hm, hreach, t, ht, hfilled, sh, hfull⟩ := exists_fillsUp
  have hlt : 0 < w.tables.length := (List.getElem?_eq_some_iff.mp ht).1
  have hok := hreach.ok.tables t (List.mem_of_getElem? ht)
  have hloses := hfilled.loses (by omega) hfull (.int 4) (by simp)
  have hfails := tabSetIk_spec hok 4 (.int 4)
  generalize hrun : ((tabSetIk 4 (.int 4)).run (w.state t) : Except Fault Unit × TabState) = res
  obtain ⟨r, s'⟩ := res
  cases r with
  | ok _ => exact hloses.of_ok hrun
  | error e =>
    have hs : w.step (.write 0 (.setIk 4 (.int 4))) = some (.error e, ⟨s'.shapes, w.tables.set 0 s'.t⟩) := by
      unfold World.step World.onTable RawWrite.run
      simp only [ht, hrun]
    have hsame := hkeeps w hreach 0 t ht (.setIk 4 (.int 4)) (by simp [RawWrite.key]) e _ hs s'.t
      (List.getElem?_set_self hlt)
    -- the key 3 had its value, and has none now
    obtain ⟨hzero, hnil⟩ := hloses.of_error hrun
    have hread := tabGetRaw_spec hok (makeInt ((2 : ℕ) + 1))
    have hread' := tabGetRaw_spec (hfails.of_error hrun).ok (makeInt ((2 : ℕ) + 1))
    have hbefore : (w.state t).tget (arrKey 2) = .int 3 := by
      rw [tget_arrKey_of_lt (by rw [hfilled.alen]; omega) (by omega)]
      unfold LuaTable.arrValue LuaTable.arrSlot
      rw [hfilled.arr]
      rfl
    have hafter : s'.tget (arrKey 2) = .nil := by
      rw [tget_arrKey_of_le (by omega) (by omega)]
      exact hnil
    have hget := hsame.get (makeInt ((2 : ℕ) + 1))
    change tabGetRaw s' _ = _ at hget
    rw [hread, hread'] at hget
    change some (s'.tget (arrKey 2)) = some ((w.state t).tget (arrKey 2)) at hget
    rw [hbefore, hafter] at hget
    cases hget

end Lua2wasm.Table
