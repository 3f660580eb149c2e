import Lua2wasm.Table.Refs
import Lua2wasm.Table.Runs

/-!
# Equal keys find the same value

`raw_equal_keys` is about keys that are raw-equal, whatever their representation: they have one hash and one
place, and what is stored under one of them is found under the other, on every path.

The lookups compare a stored key by identity, by its cached hash and by value, in an order that depends on the
key. `findWith_gives` is why they find the position of the key all the same: each test gives what raw equality
gives (`hitKey_gives`), when the stored strings have been hashed.
-/

namespace Lua2wasm.Refs

open Raising Probe Strings
open Table (Val Key TabState Shape LuaTable canon isI31 intEqFloat strHash home inArr arrIndex)

variable {h h' : StrHeap} {vals : List (List UInt8)}

/-! ## Lookups find the key of the value -/

/-- The references `ks` are the keys of the shape. Every stored string has been hashed. -/
def Keys (h : StrHeap) (vals : List (List UInt8)) (sh : Shape) (ks : List Ref) : Prop :=
  ∀ i < sh.n, ∃ k, ks[i]? = some k ∧ k.val vals = sh.key i ∧ k.Live vals ∧ k.Hashed h

variable {sh : Shape} {ks : List Ref} {k sk : Ref} {eqMm : ℕ → ℕ → StrM Bool}

theorem Keys.kept (hks : Keys h vals sh ks) (hk : HashKept h h') : Keys h' vals sh ks := by
  intro i hi
  obtain ⟨k, hik, hval, hl, hhash⟩ := hks i hi
  exact ⟨k, hik, hval, hl, hhash.kept hk⟩

/-- Equal references stand for equal keys. -/
theorem gives_true {x : StrM Bool} (heq : sk = k) (hx : Gives vals x h true) :
    Gives vals x h (decide (canon (sk.val vals) = canon (k.val vals))) := by
  subst heq
  rw [decide_eq_true rfl]
  exact hx

/-- The test of a stored key against a string: the cached hash decides first. -/
theorem hitStr_gives {s : ℕ} (hh : Holds h vals) (hl : (Ref.str s).Live vals) (hsk : sk.Live vals)
    (hhash : sk.Hashed h) (hn : Table.Normal (sk.val vals)) :
    Gives vals (hitStr s (strHash (valOf vals s)) sk) h
      (decide (canon (sk.val vals) = canon ((Ref.str s).val vals))) := by
  unfold hitStr
  split
  · rename_i heq
    exact gives_true heq (gives_pure hh true)
  cases sk with
  | str t =>
    obtain ⟨o, ho, hne⟩ := hhash
    obtain ⟨o', ho', hok⟩ := hh.obj hsk.text
    rw [ho] at ho'
    cases ho'
    have hret : Gives vals (strOf t) h o := ⟨h, strOf_returns ho, hh, Std.Refl.refl h⟩
    apply hret.bind
    intro h₁ hh₁ _
    have hcanon : (canon ((Ref.str t).val vals) = canon ((Ref.str s).val vals)) = (valOf vals t = valOf vals s) := by
      simp [Ref.val]
    simp only [hcanon]
    split
    · exact strEq_gives hh₁ hsk hl
    · rename_i hdiff
      -- different hashes are of different bytes
      have hbytes : valOf vals t ≠ valOf vals s := by
        intro heq
        apply hdiff
        rw [hok.hash hne, heq]
      rw [decide_eq_false hbytes]
      exact gives_pure hh₁ false
  | float obj f =>
    have hdiff : canon ((Ref.float obj f).val vals) ≠ canon ((Ref.str s).val vals) := by
      change canon (.float f) ≠ canon (.str s _)
      rw [Table.canon_float_of_normal hn]
      simp
    rw [decide_eq_false hdiff]
    exact gives_pure hh false
  | _ =>
    rw [decide_eq_false (by simp [Ref.val])]
    exact gives_pure hh false

/-- A key that is neither a string nor a box is equal to a stored key only if it is the same reference. -/
theorem eq_iff_canon (hn : Table.Normal (sk.val vals)) (hstr : ∀ s, k ≠ .str s) (hint : ∀ obj i hi, k ≠ .boxed obj i hi)
    (hfloat : k.isFloat = false) : sk = k ↔ canon (sk.val vals) = canon (k.val vals) := by
  constructor
  · rintro rfl
    rfl
  intro hc
  cases sk with
  | null => exact absurd hn id
  | float obj f =>
    have hf : canon ((Ref.float obj f).val vals) = some (.float f) := Table.canon_float_of_normal hn
    rw [hf] at hc
    cases k with
    | float _ _ => cases hfloat
    | _ => simp [Ref.val] at hc
  | i31 n hi =>
    cases k with
    | i31 m hm =>
      have heq : n.toInt64 = m.toInt64 := by simpa [Ref.val] using hc
      have hnm := congrArg Int64.toInt32 heq
      rw [Int32.toInt32_toInt64, Int32.toInt32_toInt64] at hnm
      subst hnm
      rfl
    | float _ _ => cases hfloat
    | boxed obj i hi => exact absurd rfl (hint obj i hi)
    | _ => simp [Ref.val] at hc
  | boxed obj i hi =>
    cases k with
    | i31 m hm =>
      -- an integer of 31 bits is not in a box
      have heq : i = m.toInt64 := by simpa [Ref.val] using hc
      rw [← heq, hi] at hm
      cases hm
    | float _ _ => cases hfloat
    | boxed obj i hi => exact absurd rfl (hint obj i hi)
    | _ => simp [Ref.val] at hc
  | str s =>
    cases k with
    | str t => exact absurd rfl (hstr t)
    | float _ _ => cases hfloat
    | _ => simp [Ref.val] at hc
  | _ =>
    cases k with
    | float _ _ => cases hfloat
    | _ => simp_all [Ref.val]

/-- The test of a stored key. -/
theorem hitKey_gives (hh : Holds h vals) (hl : k.Live vals) (hsk : sk.Live vals) (hhash : sk.Hashed h)
    (hn : Table.Normal (sk.val vals)) :
    Gives vals (hitKey eqMm k (Table.luaHash (k.val vals)) sk) h
      (decide (canon (sk.val vals) = canon (k.val vals))) := by
  -- a box is compared by value with a key that is another object
  have hbox : (∀ x, sk = .table x → ∀ y, k ≠ .table y) → (∀ n hn, k ≠ .i31 n hn) → Gives vals
      (if sk = k then pure true else luaEqRaw eqMm sk k) h (decide (canon (sk.val vals) = canon (k.val vals))) := by
    intro htab hi31
    split
    · rename_i heq
      exact gives_true heq (gives_pure hh true)
    · have heq : luaEqRaw eqMm sk k = luaRawequal sk k := by
        cases sk with
        | table x =>
          cases k with
          | table y => exact absurd rfl (htab x rfl y)
          | _ => rfl
        | i31 m hm =>
          cases k with
          | i31 n hn => exact absurd rfl (hi31 n hn)
          | _ => rfl
        | _ => rfl
      rw [heq]
      have hraw := luaRawequal_gives hh hsk hl
      have hval : Table.luaEqRaw (sk.val vals) (k.val vals) = decide (canon (sk.val vals) = canon (k.val vals)) := by
        rw [Bool.eq_iff_iff, decide_eq_true_eq]
        exact Table.luaEqRaw_iff_canon hn (k.val vals)
      rw [← hval]
      exact hraw
  -- anything else is compared by identity
  have hid : (∀ s, k ≠ .str s) → (∀ obj i hi, k ≠ .boxed obj i hi) → k.isFloat = false →
      Gives vals (pure (decide (sk = k))) h (decide (canon (sk.val vals) = canon (k.val vals))) := by
    intro hstr hint hfloat
    rw [decide_eq_decide.mpr (eq_iff_canon hn hstr hint hfloat)]
    exact gives_pure hh _
  cases k with
  | str s => exact hitStr_gives hh hl hsk hhash hn
  | boxed obj i hi => exact hbox (by simp) (by simp)
  | float obj f => exact hbox (by simp) (by simp)
  | _ => exact hid (by simp) (by simp) rfl

/-- A slot that is not empty has one of the keys. -/
theorem slot_entry (wf : Table.ShapeWf sh) {slot : ℕ} {v : ℤ} (hslot : sh.idx[slot]? = some v) (hz : v ≠ 0) :
    ∃ i < sh.n, v = (i : ℤ) + 1 := by
  have hlt := (List.getElem?_eq_some_iff.mp hslot).1
  rw [wf.indexed.length] at hlt
  obtain h0 | ⟨i, hi, heq⟩ := wf.indexed.sound slot (by omega)
  · rw [hslot] at h0
    exact absurd (Option.some.inj h0) hz
  · rw [hslot] at heq
    exact ⟨i, hi, Option.some.inj heq⟩

/-- The probe is the lookup in the index, with a test that gives `P` of the stored key. -/
theorem probeFrom_gives {hit : Ref → StrM Bool} {P : Val → Bool} (wf : Table.ShapeWf sh)
    (hhit : ∀ h' i sk, Holds h' vals → HashKept h h' → i < sh.n → ks[i]? = some sk →
      Gives vals (hit sk) h' (P (sh.key i))) (hks : Keys h vals sh ks) (hh : Holds h vals) {r : Option ℕ} :
    ∀ fuel slot, lookup sh.idx sh.mask (fun i => (sh.keys[i]?).map P) fuel slot = some r →
      Gives vals (probeFrom hit sh ks fuel slot) h r := by
  intro fuel
  induction fuel generalizing h with
  | zero =>
    intro slot hlook
    cases hlook
  | succ fuel ih =>
    intro slot hlook
    unfold lookup at hlook
    unfold probeFrom
    cases hslot : sh.idx[slot]? with
    | none =>
      rw [hslot] at hlook
      cases hlook
    | some v =>
      rw [hslot] at hlook
      dsimp only at hlook
      apply (gives_orTrap hh rfl).bind
      intro h₁ hh₁ hk₁
      split at hlook
      · rename_i hz
        rw [if_pos hz]
        cases hlook
        exact gives_pure hh₁ none
      rename_i hz
      rw [if_neg hz]
      have hhit₁ : ∀ h' i sk, Holds h' vals → HashKept h₁ h' → i < sh.n → ks[i]? = some sk →
          Gives vals (hit sk) h' (P (sh.key i)) :=
        fun h' i sk hh' hk' => hhit h' i sk hh' (IsTrans.trans _ _ _ hk₁ hk')
      split at hlook
      · rename_i hpos
        rw [if_pos hpos]
        -- the slot has one of the keys
        obtain ⟨i, hi, rfl⟩ := slot_entry wf hslot hz
        have hidx : ((i : ℤ) + 1 - 1).toNat = i := by omega
        rw [hidx] at hlook ⊢
        obtain ⟨sk, hsk, -⟩ := hks i hi
        rw [Table.Shape.getElem?_key (by have := wf.room; omega)] at hlook
        apply (gives_orTrap hh₁ hsk).bind
        intro h₂ hh₂ hk₂
        apply (hhit₁ h₂ i sk hh₂ hk₂ hi hsk).bind
        intro h₃ hh₃ hk₃
        cases hP : P (sh.key i) with
        | true =>
          simp only [Option.map_some, hP] at hlook
          cases hlook
          exact gives_pure hh₃ _
        | false =>
          simp only [Option.map_some, hP] at hlook
          have hk := IsTrans.trans _ _ _ hk₂ hk₃
          exact ih (fun h' j sk' hh' hk' => hhit₁ h' j sk' hh' (IsTrans.trans _ _ _ hk hk'))
            ((hks.kept hk₁).kept hk) hh₃ _ hlook
      · rename_i hneg
        rw [if_neg hneg]
        exact ih hhit₁ (hks.kept hk₁) hh₁ _ hlook

/-- A lookup with the test of raw equality is the search of the index. -/
theorem lookup_of_findWith {P : Val → Bool} {full : UInt32} {v : Val} {r : Option ℕ} (hP : P v = true)
    (hfind : Table.findWith P sh v full = some r) :
    lookup sh.idx sh.mask (fun i => (sh.keys[i]?).map P) (sh.mask + 1) (home sh.mask full) = some r := by
  unfold Table.findWith at hfind
  cases hslot : sh.idx[home sh.mask full]? with
  | none =>
    rw [hslot] at hfind
    cases hfind
  | some w =>
    simp only [hslot, Option.bind_eq_bind, Option.bind_some] at hfind
    by_cases hz : w = 0
    · rw [if_pos hz] at hfind
      unfold lookup
      simp only [hslot, if_pos hz, hfind]
    by_cases hpos : 0 < w
    · rw [if_neg hz, if_pos hpos] at hfind
      cases hk : sh.keys[(w - 1).toNat]? with
      | none =>
        rw [hk] at hfind
        cases hfind
      | some key =>
        simp only [hk] at hfind
        split at hfind
        · -- the key itself is in the home slot
          rename_i hid
          have heq : key = v := by simpa [Table.refEq] using hid
          unfold lookup
          simp only [hslot, if_neg hz, if_pos hpos, hk, heq, Option.map_some, hP]
          exact hfind
        · exact hfind
    · rw [if_neg hz, if_neg hpos] at hfind
      exact hfind

/-- A lookup finds the position of the key that the reference stands for. -/
theorem findWith_gives {hit : Ref → StrM Bool} (wf : Table.ShapeWf sh) (hks : Keys h vals sh ks)
    (hh : Holds h vals)
    (hhit : ∀ h' i sk, Holds h' vals → HashKept h h' → i < sh.n → ks[i]? = some sk →
      Gives vals (hit sk) h' (decide (canon (sh.key i) = canon (k.val vals)))) :
    Gives vals (findWith hit sh ks k (Table.luaHash (k.val vals))) h ((canon (k.val vals)).bind sh.pos) := by
  have hfind : Table.findWith (fun sk => decide (canon sk = canon (k.val vals))) sh (k.val vals)
      (Table.luaHash (k.val vals)) = some ((canon (k.val vals)).bind sh.pos) :=
    Table.findWith_spec wf fun _ _ => decide_eq_true_iff
  have hlook := lookup_of_findWith (decide_eq_true rfl) hfind
  generalize (canon (k.val vals)).bind sh.pos = r at hlook ⊢
  have hprobe : ∀ h', Holds h' vals → HashKept h h' →
      Gives vals (probeFrom hit sh ks (sh.mask + 1) (home sh.mask (Table.luaHash (k.val vals)))) h' r := by
    intro h' hh' hk
    exact probeFrom_gives wf (fun h'' i sk hh'' hk' => hhit h'' i sk hh'' (IsTrans.trans _ _ _ hk hk'))
      (hks.kept hk) hh' _ _ hlook
  unfold findWith
  cases hslot : sh.idx[home sh.mask (Table.luaHash (k.val vals))]? with
  | none =>
    unfold lookup at hlook
    rw [hslot] at hlook
    cases hlook
  | some w =>
    apply (gives_orTrap hh rfl).bind
    intro h₁ hh₁ hk₁
    split
    · rename_i hz
      unfold lookup at hlook
      simp only [hslot, if_pos hz] at hlook
      cases hlook
      exact gives_pure hh₁ none
    rename_i hz
    split
    · rename_i hpos
      obtain ⟨i, hi, rfl⟩ := slot_entry wf hslot hz
      have hidx : ((i : ℤ) + 1 - 1).toNat = i := by omega
      obtain ⟨sk, hsk, hval, -⟩ := hks i hi
      rw [hidx]
      apply (gives_orTrap hh₁ hsk).bind
      intro h₂ hh₂ hk₂
      split
      · -- the very reference is in the home slot, and the search would stop there
        rename_i heq
        have hkey : sh.keys[i]? = some (k.val vals) := by
          rw [Table.Shape.getElem?_key (by have := wf.room; omega), ← hval, heq]
        unfold lookup at hlook
        simp only [hslot, if_neg hz, if_pos hpos, hidx, hkey, Option.map_some, decide_true] at hlook
        rw [← Option.some.inj hlook]
        exact gives_pure hh₂ _
      · exact hprobe h₂ hh₂ (IsTrans.trans _ _ _ hk₁ hk₂)
    · exact hprobe h₁ hh₁ hk₁

theorem Keys.normal (wf : Table.ShapeWf sh) (hks : Keys h vals sh ks) {i : ℕ} (hi : i < sh.n) (hsk : ks[i]? = some sk) :
    sk.val vals = sh.key i ∧ Table.Normal (sk.val vals) ∧ sk.Live vals ∧ sk.Hashed h := by
  obtain ⟨sk', hsk', hval, hl, hhash⟩ := hks i hi
  rw [hsk] at hsk'
  cases hsk'
  exact ⟨hval, by rw [hval]; exact wf.normal i hi, hl, hhash⟩

/-- `$tab_find` finds the position of the key. -/
theorem tabFind_gives (wf : Table.ShapeWf sh) (hks : Keys h vals sh ks) (hh : Holds h vals) (hl : k.Live vals) :
    Gives vals (tabFind eqMm sh ks k) h ((canon (k.val vals)).bind sh.pos) := by
  unfold tabFind
  split
  · rename_i hn
    have hspec := Table.tabFind_spec wf (k.val vals)
    unfold Table.tabFind at hspec
    rw [if_pos hn] at hspec
    rw [← Option.some.inj hspec]
    exact gives_pure hh none
  · apply (luaHash_gives hh hl).bind
    intro h₁ hh₁ hk₁
    apply findWith_gives wf (hks.kept hk₁) hh₁
    intro h₂ i sk hh₂ hk₂ hi hsk
    obtain ⟨hval, hn, hlive, hhash⟩ := (hks.kept (IsTrans.trans _ _ _ hk₁ hk₂)).normal wf hi hsk
    rw [← hval]
    exact hitKey_gives hh₂ hl hlive hhash hn

/-- `$tab_find_str` finds the position of the string, with the hash that the compiler computed. -/
theorem tabFindStr_gives {s : ℕ} (wf : Table.ShapeWf sh) (hks : Keys h vals sh ks) (hh : Holds h vals)
    (hl : (Ref.str s).Live vals) :
    Gives vals (tabFindStr sh ks s (kstrHash (valOf vals s))) h ((canon ((Ref.str s).val vals)).bind sh.pos) := by
  rw [kstrHash_eq]
  apply findWith_gives (k := .str s) wf hks hh
  intro h₁ i sk hh₁ hk₁ hi hsk
  obtain ⟨hval, hn, hlive, hhash⟩ := (hks.kept hk₁).normal wf hi hsk
  rw [← hval]
  exact hitStr_gives hh₁ hl hlive hhash hn

/-! ## Reads read the value's key -/

section

variable {s : TabState} {b : Ref} {v : Val}

/-- What the lookup in the hash part gives at a position. -/
theorem valueAt_of_getHash (hok : Table.HashOk s sh none) {kv : Val} (hget : Table.tabGetHash s kv = some v) :
    valueAt s ((canon kv).bind sh.pos) = some v := by
  unfold Table.tabGetHash at hget
  simp only [hok.shape, Table.tabFind_spec hok.wf, Option.bind_eq_bind, Option.bind_some] at hget
  unfold valueAt
  generalize (canon kv).bind sh.pos = pos at hget ⊢
  cases pos with
  | none => exact hget
  | some i => exact hget

theorem tabGetHash_gives (hok : Table.HashOk s sh none) (hks : Keys h vals sh ks) (hh : Holds h vals)
    (hl : b.Live vals) (hget : Table.tabGetHash s (b.val vals) = some v) :
    Gives vals (tabGetHash eqMm s ks b) h v := by
  unfold tabGetHash
  apply (gives_orTrap hh hok.shape).bind
  intro h₁ hh₁ hk₁
  apply (tabFind_gives hok.wf (hks.kept hk₁) hh₁ hl).bind
  intro h₂ hh₂ _
  exact gives_orTrap hh₂ (valueAt_of_getHash hok hget)

/-- `$tab_get_raw` of a key that is no string. -/
def tabGetOther (eqMm : ℕ → ℕ → StrM Bool) (s : TabState) (ks : List Ref) (k : Ref) : StrM Val :=
  match asArrKey k with
  | some i => if inArr s.t i then orTrap (arrAt s (arrIndex i)) else tabGetHash eqMm s ks k
  | none => tabGetHash eqMm s ks k

/-- `$tab_get_raw` reads the key that the reference stands for. -/
theorem tabGetRaw_gives (hok : Table.HashOk s sh none) (hks : Keys h vals sh ks) (hh : Holds h vals)
    (hl : b.Live vals) (hget : Table.tabGetRaw s (b.val vals) = some v) :
    Gives vals (tabGetRaw eqMm s ks b) h v := by
  have hother : (b.val vals).isStr = false → Gives vals (tabGetOther eqMm s ks b) h v := by
    intro hstr
    unfold tabGetOther
    unfold Table.tabGetRaw at hget
    rw [if_neg (by simp [hstr])] at hget
    rw [asArrKey_val vals]
    cases hi : Table.asArrKey (b.val vals) with
    | none =>
      simp only [hi] at hget
      exact tabGetHash_gives hok hks hh hl hget
    | some i =>
      simp only [hi] at hget
      dsimp only
      split at hget
      · rename_i hin
        rw [if_pos hin]
        exact gives_orTrap hh hget
      · rename_i hin
        rw [if_neg hin]
        exact tabGetHash_gives hok hks hh hl hget
  cases b with
  | str t => exact tabGetHash_gives hok hks hh hl hget
  | _ => exact hother rfl

theorem makeInt_val (obj : ℕ) (i : Int64) : (makeInt obj i).val vals = .int i := by
  unfold makeInt
  split
  · rename_i hi
    change Val.int i.toInt32.toInt64 = _
    rw [isI31_toInt32 hi]
  · rfl

theorem makeInt_live (obj : ℕ) (i : Int64) : (makeInt obj i).Live vals := by
  unfold makeInt
  split <;> trivial

/-- `$lua_index_ik` reads the integer key. -/
theorem luaIndexIk_gives {obj : ℕ} {i : Int64} (hok : Table.HashOk s sh none) (hks : Keys h vals sh ks)
    (hh : Holds h vals) (hget : Table.tabGetRaw s (.int i) = some v) :
    Gives vals (luaIndexIk eqMm s ks obj i) h v := by
  have hraw : ∀ h', Holds h' vals → HashKept h h' → Gives vals (tabGetRaw eqMm s ks (makeInt obj i)) h' v := by
    intro h' hh' hk
    refine tabGetRaw_gives hok (hks.kept hk) hh' (makeInt_live obj i) ?_
    rw [makeInt_val]
    exact hget
  unfold luaIndexIk
  split
  · rename_i hin
    have harr : arrAt s (arrIndex i) = some v := by
      unfold Table.tabGetRaw at hget
      rw [if_neg (by simp [Table.Val.isStr])] at hget
      simp only [Table.asArrKey, if_pos hin] at hget
      exact hget
    apply (gives_orTrap hh harr).bind
    intro h₁ hh₁ hk₁
    split
    · exact hraw h₁ hh₁ hk₁
    · exact gives_pure hh₁ v
  · exact hraw h hh (Std.Refl.refl h)

end

/-! ## A stored value is there -/

section

open Table (TabOk HashSet ArrSet Declined StoreClean RawWrite World)

variable {s s' : TabState} {key : Key} {v : Val} {i : Int64} {P : Prop}

/-- A value in the hash part is read, unless the key is in the array part. -/
theorem HashSet.found (hs : HashSet s s' key v) (hout : ∀ i, key = .int i → ¬ inArr s.t i = true) :
    s'.tget key = v := by
  cases key with
  | int i =>
    have hno := hout i rfl
    rw [← hs.toFrame.inArr_eq] at hno
    rw [Table.tget_of_not_inArr hno]
    exact hs.get
  | _ =>
    rw [Table.tget_of_ne_int (by simp)]
    exact hs.get

/-- A store that the array part declined goes to the hash part. -/
theorem Declined.found (hd : Declined P s s' i) (v : Val) :
    Meets (Table.tabSetHash (.int i) v) s' (fun _ s'' => s''.tget (.int i) = v) fun _ _ => True := by
  obtain ⟨sh, hash⟩ := hd.ok.hash
  refine (Table.tabSetHash_spec hash (Table.normal_int i) rfl v).mono ?_ fun _ _ _ => trivial
  intro _ s'' hs
  apply HashSet.found hs
  intro j hj
  rw [← Key.int.inj hj]
  exact hd.out

/-- `$tab_set_ik` leaves the value at its key. -/
theorem tabSetIk_found (hok : TabOk s none) (i : Int64) (hv : v ≠ .nil) :
    Meets (Table.tabSetIk i v) s (fun _ s' => s'.tget (.int i) = v) fun _ _ => True := by
  unfold Table.tabSetIk
  apply ((Table.tabSetArr_spec hok i (.val v)).imp_error fun _ _ _ => trivial).bind
  intro b s₁ hs
  cases b with
  | true =>
    have hs : ArrSet (StoreClean s i (.val v)) s s₁ i (.val v) := hs
    have hin := hs.kept (decide_eq_false (by simpa using hv))
    apply meets_pure
    rw [Table.tget_of_inArr hin]
    unfold LuaTable.arrValue
    rw [hs.slot hin]
  | false => exact Declined.found (P := StoreClean s i (.val v)) hs v

/-- `$lua_tabset_ik_f` leaves the double at its key. -/
theorem tabsetIkF_found (hok : TabOk s none) (i : Int64) (f : F64) :
    Meets (Table.tabsetIkF i f) s (fun _ s' => s'.tget (.int i) = .float f) fun _ _ => True := by
  unfold Table.tabsetIkF
  apply ((Table.tabSetArr_spec hok i .mark).imp_error fun _ _ _ => trivial).bind
  intro b s₁ hs
  cases b with
  | true =>
    have hs : ArrSet (StoreClean s i .mark) s s₁ i .mark := hs
    have hin := hs.kept rfl
    refine (Table.setFarr_spec hs.arr (Table.arrIndex_lt hin) (hs.slot hin)).mono ?_ fun _ _ _ => trivial
    rintro _ s' ⟨-, -, halen, -, hvalue, -⟩
    have hin' : inArr s'.t i = true := by
      unfold inArr at hin ⊢
      rw [halen]
      exact hin
    rw [Table.tget_of_inArr hin']
    exact hvalue
  | false =>
    have hs : Declined (StoreClean s i .mark) s s₁ i := hs
    obtain ⟨sh, hash⟩ := hs.ok.hash
    refine (Table.tabSetFHash_spec hash (Table.normal_int i) rfl f).mono ?_ fun _ _ _ => trivial
    intro _ s'' hset
    apply HashSet.found hset
    intro j hj
    rw [← Key.int.inj hj]
    exact hs.out

/-- `$tab_set` leaves the value at its key. -/
theorem tabSet_found (hok : TabOk s none) {kv : Val} (hc : canon kv = some key) (hv : v ≠ .nil) :
    Meets (Table.tabSet kv v) s (fun _ s' => s'.tget key = v) fun _ _ => True := by
  obtain ⟨sh, hash⟩ := hok.hash
  have hhash : Table.Normal kv → (∀ i, key ≠ .int i) →
      Meets (Table.tabSetHash kv v) s (fun _ s' => s'.tget key = v) fun _ _ => True := by
    intro hn hne
    refine (Table.tabSetHash_spec hash hn hc v).mono ?_ fun _ _ _ => trivial
    intro _ s' hs
    exact HashSet.found hs fun i hi => absurd hi (hne i)
  unfold Table.tabSet
  split
  · rename_i hstr
    cases kv with
    | str o x =>
      refine hhash trivial ?_
      rintro i rfl
      cases hc
    | _ => cases hstr
  split
  · exact meets_throw trivial
  split
  · exact meets_throw trivial
  cases hi : Table.asArrKey kv with
  | some i =>
    obtain rfl : Key.int i = key := by
      rw [Table.canon_of_asArrKey hi] at hc
      exact Option.some.inj hc
    exact tabSetIk_found hok i hv
  | none =>
    refine hhash (Table.normal_of_asArrKey hc hi) ?_
    rintro i rfl
    exact absurd hc (Table.canon_ne_int_of_asArrKey hi i)

/-- The stores of the value `v` under the key `a`: the generic one, and those that the compiler chooses for a
string constant and for an integer. -/
inductive StoreOf (vals : List (List UInt8)) (a : Ref) (v : Val) : RawWrite → Prop
  /-- `$tab_set`. -/
  | set : StoreOf vals a v (.set (a.val vals) v)
  /-- `$tab_set_hash_str`. -/
  | str {s : ℕ} (h : a = .str s) : StoreOf vals a v (.setStr s (valOf vals s) v)
  /-- `$tab_set_ik`. -/
  | int {i : Int64} (h : asArrKey a = some i) : StoreOf vals a v (.setIk i v)
  /-- `$tab_set_f_hash_str`. -/
  | strF {s : ℕ} {f : F64} (h : a = .str s) (hv : v = .float f) : StoreOf vals a v (.setStrF s (valOf vals s) f)
  /-- `$lua_tabset_ik_f`. -/
  | intF {i : Int64} {f : F64} (h : asArrKey a = some i) (hv : v = .float f) : StoreOf vals a v (.setIkF i f)

/-- A store leaves the value at its key, on every path. -/
theorem StoreOf.found {a : Ref} {op : RawWrite} (hop : StoreOf vals a v op) (hok : TabOk s none)
    (hc : canon (a.val vals) = some key) (hv : v ≠ .nil) :
    Meets op.run s (fun _ s' => s'.tget key = v) fun _ _ => True := by
  obtain ⟨sh, hash⟩ := hok.hash
  have hint : ∀ {i}, asArrKey a = some i → key = .int i := by
    intro i hi
    rw [asArrKey_val vals] at hi
    rw [Table.canon_of_asArrKey hi] at hc
    exact (Option.some.inj hc).symm
  have hstr : ∀ {s}, a = .str s → key = .str (valOf vals s) := by
    rintro s rfl
    exact (Option.some.inj hc).symm
  cases hop with
  | set => exact tabSet_found hok hc hv
  | str h =>
    obtain rfl := hstr h
    refine (Table.tabSetHashStr_spec hash v).mono ?_ fun _ _ _ => trivial
    intro _ s' hs
    exact HashSet.found hs fun i hi => by cases hi
  | int h =>
    obtain rfl := hint h
    exact tabSetIk_found hok _ hv
  | strF h hf =>
    obtain rfl := hstr h
    subst hf
    refine (Table.tabSetFHashStr_spec hash _).mono ?_ fun _ _ _ => trivial
    intro _ s' hs
    exact HashSet.found hs fun i hi => by cases hi
  | intF h hf =>
    obtain rfl := hint h
    subst hf
    exact tabsetIkF_found hok _ _

/-- The reads of a key: the generic one, and those that the compiler chooses. -/
inductive Read
  /-- `$tab_get_raw`. -/
  | raw (b : Ref)
  /-- `$tab_get_str_h`, with the hash of the constant string. -/
  | str (s : ℕ) (full : UInt32)
  /-- `$lua_index_ik`. -/
  | int (obj : ℕ) (i : Int64)

/-- The runtime's read. -/
def Read.run (eqMm : ℕ → ℕ → StrM Bool) (s : TabState) (ks : List Ref) : Read → StrM Val
  | .raw b => tabGetRaw eqMm s ks b
  | .str t full => tabGetStrH s ks t full
  | .int obj i => luaIndexIk eqMm s ks obj i

/-- The read is one of the key `b`. -/
def Read.Of (vals : List (List UInt8)) (b : Ref) : Read → Prop
  | .raw b' => b' = b
  | .str s full => b = .str s ∧ full = kstrHash (valOf vals s)
  | .int _ i => asArrKey b = some i

/-- A read gives the value at the key, on every path. -/
theorem Read.gives {b : Ref} {rd : Read} (hok : TabOk s none) (hrd : rd.Of vals b) (hsh : s.shape = some sh)
    (hks : Keys h vals sh ks) (hh : Holds h vals) (hl : b.Live vals) (hc : canon (b.val vals) = some key) :
    Gives vals (rd.run eqMm s ks) h (s.tget key) := by
  obtain ⟨sh', hash⟩ := hok.hash
  have heq := hash.shape
  rw [hsh] at heq
  cases heq
  have hget : Table.tabGetRaw s (b.val vals) = some (s.tget key) := by
    rw [Table.tabGetRaw_spec hok, hc]
    rfl
  cases rd with
  | raw b' =>
    obtain rfl : b' = b := hrd
    exact tabGetRaw_gives hash hks hh hl hget
  | str t full =>
    obtain ⟨rfl, rfl⟩ := hrd
    apply (gives_orTrap hh hash.shape).bind
    intro h₁ hh₁ hk₁
    apply (tabFindStr_gives hash.wf (hks.kept hk₁) hh₁ hl).bind
    intro h₂ hh₂ _
    exact gives_orTrap hh₂ (valueAt_of_getHash hash hget)
  | int obj i =>
    have hi : Table.asArrKey (b.val vals) = some i := by
      rw [← asArrKey_val vals]
      exact hrd
    have hint : Table.tabGetRaw s (.int i) = some (s.tget key) := by
      have hcanon := Table.canon_of_asArrKey hi
      rw [hc] at hcanon
      rw [Table.tabGetRaw_spec hok, Table.canon_int, ← hcanon]
      rfl
    exact luaIndexIk_gives hash hks hh hint

/-- What a write to a table leads to. -/
theorem state_of_write {w w' : World} {j : ℕ} {op : RawWrite} {t : LuaTable}
    (hs : w.step (.write j op) = some (.ok (), w')) (ht : w'.tables[j]? = some t) :
    ∃ t₀, w.tables[j]? = some t₀ ∧
      (op.run.run (w.state t₀) : Except Table.Fault Unit × TabState) = (.ok (), w'.state t) := by
  have hs' : w.onTable j op.run = some (.ok (), w') := hs
  unfold World.onTable at hs'
  cases ht₀ : w.tables[j]? with
  | none =>
    rw [ht₀] at hs'
    cases hs'
  | some t₀ =>
    refine ⟨t₀, rfl, ?_⟩
    simp only [ht₀] at hs'
    generalize (op.run.run (w.state t₀) : Except Table.Fault Unit × TabState) = res at hs' ⊢
    obtain ⟨r, s'⟩ := res
    cases hs'
    rw [List.getElem?_set_self (List.getElem?_eq_some_iff.mp ht₀).1] at ht
    cases ht
    rfl

/-- Equal values denote the same key. -/
theorem canon_of_luaEqRaw {u v : Val} (hne : u ≠ .nil) (heq : Table.luaEqRaw u v = true) :
    ∃ key, canon u = some key ∧ canon v = some key := by
  -- a float that equals an integer denotes the key of the integer
  have hint : ∀ (i : Int64) (f : F64), intEqFloat i f = true → canon (.float f) = some (.int i) := by
    intro i f hi
    have hf : f.toI64 = some i := by simpa [intEqFloat] using hi
    obtain ⟨-, hno, -⟩ | ⟨j, -, hj, hc⟩ | ⟨-, hno, -⟩ := Table.canon_float_cases f
    · rw [hf] at hno
      cases hno
    · rw [hf] at hj
      rw [hc, Option.some.inj hj]
    · rw [hf] at hno
      cases hno
  cases u with
  | nil => exact absurd rfl hne
  | int i =>
    cases v with
    | int j =>
      have hij : i = j := by simpa [Table.luaEqRaw, Table.numEq] using heq
      exact ⟨.int i, rfl, by rw [hij]; rfl⟩
    | float f => exact ⟨.int i, rfl, hint i f heq⟩
    | _ => simp [Table.luaEqRaw] at heq
  | float f =>
    cases v with
    | int i => exact ⟨.int i, hint i f heq, rfl⟩
    | float g =>
      have hfg : f.eq g = true := heq
      have hnan : f.isNaN = false ∧ g.isNaN = false := by
        unfold F64.eq at hfg
        simp only [Bool.and_eq_true, Bool.not_eq_true'] at hfg
        exact hfg.1
      obtain rfl | ⟨hf, hg⟩ := (F64.eq_iff hnan.1 hnan.2).mp hfg
      · obtain ⟨hno, -, -⟩ | ⟨i, -, -, hc⟩ | ⟨-, -, hc⟩ := Table.canon_float_cases f
        · rw [hnan.1] at hno
          cases hno
        · exact ⟨_, hc, hc⟩
        · exact ⟨_, hc, hc⟩
      · -- the two zeros
        refine ⟨.int 0, hint 0 f ?_, hint 0 g ?_⟩
        · simp [intEqFloat, F64.toI64_of_isZero hf]
        · simp [intEqFloat, F64.toI64_of_isZero hg]
    | _ => simp [Table.luaEqRaw] at heq
  | bool x =>
    cases v with
    | bool y =>
      have hxy : x = y := by simpa [Table.luaEqRaw] using heq
      exact ⟨.bool x, rfl, by rw [hxy]; rfl⟩
    | _ => simp [Table.luaEqRaw] at heq
  | str o x =>
    cases v with
    | str o' y =>
      have hxy : x = y := by simpa [Table.luaEqRaw] using heq
      exact ⟨.str x, rfl, by rw [hxy]; rfl⟩
    | _ => simp [Table.luaEqRaw] at heq
  | table o =>
    cases v with
    | table o' =>
      have hoo : o = o' := by simpa [Table.luaEqRaw] using heq
      exact ⟨.table o, rfl, by rw [hoo]; rfl⟩
    | _ => simp [Table.luaEqRaw] at heq
  | other o =>
    cases v with
    | other o' =>
      have hoo : o = o' := by simpa [Table.luaEqRaw] using heq
      exact ⟨.other o, rfl, by rw [hoo]; rfl⟩
    | _ => simp [Table.luaEqRaw] at heq

/-- A key is that of a normal value. -/
theorem exists_normal {u : Val} (hc : canon u = some key) : ∃ n, Table.Normal n ∧ canon n = some key := by
  cases u with
  | nil => cases hc
  | float f =>
    obtain ⟨-, -, hno⟩ | ⟨i, -, -, hi⟩ | ⟨hnan, hi, -⟩ := Table.canon_float_cases f
    · rw [hno] at hc
      cases hc
    · exact ⟨.int i, trivial, by rw [← hc, hi]; rfl⟩
    · exact ⟨.float f, ⟨hnan, hi⟩, hc⟩
  | _ =>
    refine ⟨_, ?_, hc⟩
    trivial

/-- Values of the same key have the same hash. -/
theorem luaHash_eq_of_canon {u v : Val} (hu : canon u = some key) (hv : canon v = some key) :
    Table.luaHash u = Table.luaHash v := by
  obtain ⟨n, hn, hc⟩ := exists_normal hu
  calc Table.luaHash u
      = Table.luaHash n := (Table.luaHash_eq_of_canon_eq hn (hc.trans hu.symm)).symm
    _ = Table.luaHash v := Table.luaHash_eq_of_canon_eq hn (hc.trans hv.symm)

/-- Values of the same key go to the same part of a table. -/
theorem asArrKey_eq_of_canon {u v : Val} (hu : canon u = some key) (hv : canon v = some key) :
    Table.asArrKey u = Table.asArrKey v := by
  cases hi : Table.asArrKey u with
  | some i =>
    rw [Table.canon_of_asArrKey hi] at hu
    cases hj : Table.asArrKey v with
    | some j =>
      rw [Table.canon_of_asArrKey hj, ← hu] at hv
      cases hv
      rfl
    | none => exact absurd (hv.trans hu.symm) (Table.canon_ne_int_of_asArrKey hj i)
  | none =>
    cases hj : Table.asArrKey v with
    | some j =>
      rw [Table.canon_of_asArrKey hj] at hv
      exact absurd (hu.trans hv.symm) (Table.canon_ne_int_of_asArrKey hi j)
    | none => rfl

/-- Equal keys denote the same key of a table. -/
theorem canon_of_rawequal {a b : Ref} (hh : Holds h vals) (ha : a.Live vals) (hb : b.Live vals) (hne : a ≠ .null)
    (heq : ∃ h', Returns (luaRawequal a b) h true h') :
    ∃ key, canon (a.val vals) = some key ∧ canon (b.val vals) = some key := by
  obtain ⟨h', hret⟩ := heq
  obtain ⟨h₁, hret₁, -⟩ := luaRawequal_gives hh ha hb
  have hval : Table.luaEqRaw (a.val vals) (b.val vals) = true := by
    have hsame := (show _ = _ from hret₁).symm.trans hret
    cases hraw : Table.luaEqRaw (a.val vals) (b.val vals) with
    | true => rfl
    | false =>
      rw [hraw] at hsame
      cases hsame
  have hnil : a.val vals ≠ .nil := by
    cases a <;> simp_all [Ref.val]
  exact canon_of_luaEqRaw hnil hval

/-- At any time, whatever has happened to strings and to tables: a computed hash of a string is the hash of its
bytes, the compiler computes the same hash, and no call takes it away. Keys that are raw-equal have one hash,
and the same place in the array part if they have one there. What a table has under one of them it has under
the other, and what was stored under one of them is found under the other, on every path. -/
theorem raw_equal_keys (host : HostFmt) (h : StrHeap) (hist : List (StrOp × Except Table.Fault StrResult))
    (hrun : StrRun host h hist) (w : World) (hw : w.Reachable) (eqMm : ℕ → ℕ → StrM Bool) :
    ∃ vals, Holds h vals ∧
      (∀ s o, h.strs[s]? = some o → o.hash ≠ 0 → o.hash = strHash (valOf vals s)) ∧
      (∀ bytes, kstrHash bytes = strHash bytes) ∧
      (∀ (op : StrOp) (r : Except Table.Fault StrResult) (h' : StrHeap),
        ((op.run host).run h : Except Table.Fault StrResult × StrHeap) = (r, h') → HashKept h h') ∧
      ∀ a b : Ref, a.Live vals → b.Live vals → a ≠ .null → (∃ h', Returns (luaRawequal a b) h true h') →
        (∃ c, Gives vals (luaHash a) h c ∧ Gives vals (luaHash b) h c) ∧
        (∀ c h', Returns (luaHash a) h c h' → a.Hashed h') ∧
        asArrKey a = asArrKey b ∧
        (∀ (i : ℕ) (t : LuaTable) (sh : Shape) (ks : List Ref), w.tables[i]? = some t →
          (w.state t).shape = some sh → Keys h vals sh ks →
          ∃ v, ∀ rd : Read, rd.Of vals a ∨ rd.Of vals b → Gives vals (rd.run eqMm (w.state t) ks) h v) ∧
        ∀ (i : ℕ) (op : RawWrite) (v : Val) (w' : World), StoreOf vals a v op → v ≠ .nil →
          w.step (.write i op) = some (.ok (), w') → ∀ (t : LuaTable) (sh : Shape) (ks : List Ref),
            w'.tables[i]? = some t → (w'.state t).shape = some sh → Keys h vals sh ks →
            ∀ rd : Read, rd.Of vals b → Gives vals (rd.run eqMm (w'.state t) ks) h v := by
  obtain ⟨vals, hh, -⟩ := hrun.explained
  refine ⟨vals, hh, ?_, kstrHash_eq, ?_, ?_⟩
  · intro s o ho hne
    obtain ⟨x, hx⟩ := hh.val (List.getElem?_eq_some_iff.mp ho).1
    rw [valOf_eq hx]
    exact (hh.strs s o x ho hx).hash hne
  · intro op r h' hop
    have hmoves := StrOp.moves host op h
    cases r with
    | ok _ => exact hmoves.of_ok hop
    | error _ => exact hmoves.of_error hop
  intro a b ha hb hne heq
  -- both references denote one key, and all that follows depends on the key only
  obtain ⟨key, hca, hcb⟩ := canon_of_rawequal hh ha hb hne heq
  refine ⟨⟨_, luaHash_gives hh ha, ?_⟩, ?_, ?_, ?_, ?_⟩
  · rw [luaHash_eq_of_canon hca hcb]
    exact luaHash_gives hh hb
  · intro c h' hret
    exact hashed_of_returns hh ha hret
  · rw [asArrKey_val vals, asArrKey_val vals]
    exact asArrKey_eq_of_canon hca hcb
  · intro i t sh ks ht hsh hks
    have hok := hw.ok.tables t (List.mem_of_getElem? ht)
    refine ⟨(w.state t).tget key, ?_⟩
    rintro rd (hrd | hrd)
    · exact rd.gives hok hrd hsh hks hh ha hca
    · exact rd.gives hok hrd hsh hks hh hb hcb
  · intro i op v w' hop hv hs t sh ks ht hsh hks rd hrd
    obtain ⟨t₀, ht₀, hres⟩ := state_of_write hs ht
    have hw' : w'.Reachable := hw.step (show (Table.WorldOp.write i op).Legal w from trivial) hs (by simp)
    have hfound := (hop.found (hw.ok.tables t₀ (List.mem_of_getElem? ht₀)) hca hv).of_ok hres
    rw [← hfound]
    exact rd.gives (hw'.ok.tables t (List.mem_of_getElem? ht)) hrd hsh hks hh hb hcb

theorem returns_of_ok {α : Type} {x : StrM α} {a : α} (heq : (x.run h : Except Table.Fault α × StrHeap).1 = .ok a) :
    ∃ h', Returns x h a h' :=
  ⟨(x.run h : Except Table.Fault α × StrHeap).2, Prod.ext heq rfl⟩

/-- The bytes of a string. -/
def longBytes : List UInt8 := List.replicate 127 97 ++ [55]

/-- A string that has not been made yet, and one with the same bytes that has and whose hash is computed. -/
def lazyAndFlat : List StrOp :=
  [.make (List.replicate 127 97) false, .concat (.str 0) (.int 7), .make longBytes false, .hash 3]

/-- The strings after these calls. -/
def lazyAndFlatHeap : StrHeap := (StrHeap.init.calls zeroHost lazyAndFlat).1

/-- A new table, and a store under the second of the strings. -/
def flatKeyStores : List Table.WorldOp := [.new, .write 0 (.setStr 3 longBytes (.int 9))]

/-- The world after it. -/
def flatKey : Table.World := (Table.World.init.run flatKeyStores).getD Table.World.init

theorem flatKey_reachable : flatKey.Reachable := by
  have hsome : (Table.World.init.run flatKeyStores).isSome = true := by decide +kernel
  obtain ⟨w, hw⟩ := Option.isSome_iff_exists.mp hsome
  have hkey : Table.World.init.run flatKeyStores = some flatKey := by
    unfold flatKey
    rw [hw, Option.getD_some]
  apply Table.World.Reachable.init.of_run _ hkey
  intro op hop w
  fin_cases hop <;> trivial

/-- The second string has its bytes and its hash. -/
theorem lazyAndFlat_made (hh : Holds lazyAndFlatHeap vals) :
    valOf vals 3 = longBytes ∧ (Ref.str 3).Live vals ∧ (Ref.str 3).Hashed lazyAndFlatHeap := by
  have hmade : (lazyAndFlatHeap.strs[3]?.bind fun o =>
      o.bytes.bind fun r => (lazyAndFlatHeap.arrs[r]?).map fun x => (o.hash == 0, x)) = some (false, longBytes) := by
    decide +kernel
  obtain ⟨o, ho, hmade⟩ := Option.bind_eq_some_iff.mp hmade
  obtain ⟨r, hr, hmade⟩ := Option.bind_eq_some_iff.mp hmade
  obtain ⟨x, hx, hmade⟩ := Option.map_eq_some_iff.mp hmade
  obtain ⟨hhashed, rfl⟩ := Prod.mk.inj hmade
  obtain ⟨y, hy⟩ := hh.val (List.getElem?_eq_some_iff.mp ho).1
  refine ⟨?_, (List.getElem?_eq_some_iff.mp hy).1, o, ho, by simpa using hhashed⟩
  rw [valOf_eq hy]
  exact Option.some.inj (((hh.strs 3 o y ho hy).bytes r hr).symm.trans hx)

/-- The table of that world. -/
def flatKeyTable : LuaTable := flatKey.tables.getD 0 Table.tabNew

/-- The two strings have one hash, and what was stored under the one is found under the other. -/
theorem raw_equal_keys_lazyAndFlat :
    ∃ vals, Holds lazyAndFlatHeap vals ∧
      (∃ c, Gives vals (luaHash (.str 2)) lazyAndFlatHeap c ∧ Gives vals (luaHash (.str 3)) lazyAndFlatHeap c) ∧
      asArrKey (.str 2) = asArrKey (.str 3) ∧
      ∃ v, ∀ b ∈ [Ref.str 2, Ref.str 3],
        Gives vals (tabGetRaw (fun _ _ => pure false) (flatKey.state flatKeyTable) [.str 3] b) lazyAndFlatHeap v := by
  have hlegal : StrHeap.init.CallsLegal zeroHost lazyAndFlat := by
    set_option maxRecDepth 20000 in
    decide +kernel
  obtain ⟨vals, hh, -, -, -, hkeys⟩ := raw_equal_keys zeroHost _ _ (StrRun.init.calls lazyAndFlat hlegal)
    flatKey flatKey_reachable fun _ _ => pure false
  change Holds lazyAndFlatHeap vals at hh
  obtain ⟨hval, hlive, hhashed⟩ := lazyAndFlat_made hh
  have heq : ((luaRawequal (.str 2) (.str 3)).run lazyAndFlatHeap : Except Table.Fault Bool × StrHeap).1 = .ok true := by
    decide +kernel
  have htwo : (Ref.str 2).Live vals := Nat.lt_trans (by decide : 2 < 3) hlive
  obtain ⟨hhash, -, hroute, hreads, -⟩ := hkeys (.str 2) (.str 3) htwo hlive (by simp) (returns_of_ok heq)
  -- the only key of the hash part is the second string
  have hshape : ((flatKey.state flatKeyTable).shape.map fun sh => (sh.n, sh.key 0)) = some (1, .str 3 longBytes) := by
    decide +kernel
  obtain ⟨sh, hsh, hshape⟩ := Option.map_eq_some_iff.mp hshape
  obtain ⟨hn, hkey⟩ := Prod.mk.inj hshape
  have ht : flatKey.tables[0]? = some flatKeyTable := Table.getElem?_of_lt (by decide +kernel)
  obtain ⟨v, hv⟩ := hreads 0 _ sh [.str 3] ht hsh fun i hi => by
    obtain rfl : i = 0 := by omega
    refine ⟨.str 3, rfl, ?_, hlive, hhashed⟩
    rw [hkey]
    exact congrArg _ hval
  refine ⟨vals, hh, hhash, hroute, v, fun b hb => hv (.raw b) ?_⟩
  obtain rfl | rfl := List.mem_pair.mp hb
  · exact Or.inl rfl
  · exact Or.inr rfl

end

end Lua2wasm.Refs
