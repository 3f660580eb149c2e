import Lua2wasm.Pattern.Class

/-!
# Patterns as lists of items

`readItem` reads one item of a pattern: what it is, and the rest of the pattern after it. `$match_pat` reads
the same items by their indices; that its helpers agree with `readItem` is `itemEnd_spec` and
`matchOneItem_spec`. Malformed items are items too.

A set is read in two ways. Its body ends at the closing bracket, where `%` takes the byte after it along
(`setRest`); its elements are read one after the other, and there `%` after a range's `-` is a plain byte
(`walkElems`). The two come apart only where a range ends in `%`.
-/

namespace Lua2wasm.Pattern

open Table (Fault)
open Pack (chr orTrap)

/-- A quantifier, or none. -/
inductive Quant
  /-- Once. -/
  | one
  /-- `?`. -/
  | opt
  /-- `-`. -/
  | lazy
  /-- `*`. -/
  | star
  /-- `+`. -/
  | plus
  deriving DecidableEq, Repr

/-- What matches one byte. -/
inductive PClass
  /-- `.`. -/
  | any
  /-- A byte. -/
  | lit (b : UInt8)
  /-- `%` and a byte. -/
  | esc (letter : UInt8)
  /-- `[`, with the bytes after it or after `[^`, up to the end of the pattern. -/
  | set (neg : Bool) (text : List UInt8)
  /-- `[` at the end of the pattern. -/
  | bracket
  /-- `%` at the end of the pattern. -/
  | percent
  deriving DecidableEq, Repr

/-- An item of a pattern. -/
inductive PItem
  /-- `$` at the end. -/
  | eos
  /-- `()`. -/
  | posCap
  /-- `(`. -/
  | openCap
  /-- `)`. -/
  | closeCap
  /-- `%1` to `%9`, from 0. -/
  | backref (idx : ℕ)
  /-- `%b`. -/
  | balance (x y : UInt8)
  /-- `%b` without its two bytes. -/
  | noBalance
  /-- `%f`. -/
  | frontier (c : PClass)
  /-- `%f` without `[`. -/
  | noFrontier
  /-- A byte of a class, with a quantifier. -/
  | single (c : PClass) (q : Quant)
  deriving DecidableEq, Repr

/-! ## Sets -/

/-- The body of a set and the rest of the pattern after its closing bracket. -/
def setRest : ℕ → Bool → List UInt8 → Option (List UInt8 × List UInt8)
  | 0, _, _ => none
  | _ + 1, _, [] => none
  | fuel + 1, first, b :: r =>
    if b = chr ']' ∧ first = false then some ([], r)
    else if b = chr '%' then
      match r with
      | [] => none
      | c :: r => (setRest fuel false r).map fun p => (b :: c :: p.1, p.2)
    else (setRest fuel false r).map fun p => (b :: p.1, p.2)

/-- What comes after the closing bracket. -/
def restOf (fuel : ℕ) (first : Bool) (text : List UInt8) : List UInt8 :=
  ((setRest fuel first text).map Prod.snd).getD []

/-- An element of a set. -/
inductive SetElem
  /-- `%` and a byte. -/
  | cls (letter : UInt8)
  /-- A range. -/
  | range (a c : UInt8)
  /-- A byte. -/
  | lit (b : UInt8)
  deriving DecidableEq, Repr

/-- The element has the byte. -/
def SetElem.has (byte : UInt8) : SetElem → Bool
  | .cls letter => matchClass byte letter
  | .range a c => a ≤ byte && byte ≤ c
  | .lit b => byte = b

/-- The elements that `$match_set` reads. -/
def walkElems : ℕ → Bool → List UInt8 → List SetElem
  | 0, _, _ => []
  | _ + 1, _, [] => []
  | fuel + 1, first, b :: r =>
    if b = chr ']' ∧ first = false then []
    else if b = chr '%' then
      match r with
      | [] => []
      | c :: r => .cls c :: walkElems fuel false r
    else
      match r with
      | d :: c :: r' =>
        if d = chr '-' ∧ c ≠ chr ']' then .range b c :: walkElems fuel false r'
        else .lit b :: walkElems fuel false r
      | _ => .lit b :: walkElems fuel false r

/-- The class of a set whose `[` has been read. -/
def readSet : List UInt8 → PClass
  | [] => .bracket
  | b :: r => if b = chr '^' then .set true r else .set false (b :: r)

/-- The rest of the pattern after a set. -/
def PClass.after : PClass → List UInt8
  | .set _ text => restOf (text.length + 1) true text
  | _ => []

/-- What `$match_one_item` tests. -/
def PClass.walkHas (byte : UInt8) : PClass → Bool
  | .any => true
  | .lit b => byte = b
  | .esc letter => matchClass byte letter
  | .set neg text => (walkElems (text.length + 1) true text).any (·.has byte) != neg
  | .bracket => false
  | .percent => false

/-! ## Items -/

/-- The quantifier after an item, and the rest of the pattern. -/
def readQuant : List UInt8 → Quant × List UInt8
  | [] => (.one, [])
  | b :: r =>
    if b = chr '?' then (.opt, r)
    else if b = chr '-' then (.lazy, r)
    else if b = chr '*' then (.star, r)
    else if b = chr '+' then (.plus, r)
    else (.one, b :: r)

/-- The class at the start of a pattern, and the rest of the pattern. -/
def readClass (b : UInt8) (r : List UInt8) : PClass × List UInt8 :=
  if b = chr '%' then
    match r with
    | [] => (.percent, [])
    | c :: r => (.esc c, r)
  else if b = chr '[' then (readSet r, (readSet r).after)
  else if b = chr '.' then (.any, r)
  else (.lit b, r)

/-- A class with its quantifier. -/
def readSingle (b : UInt8) (r : List UInt8) : PItem × List UInt8 :=
  let (c, r) := readClass b r
  let (q, r) := readQuant r
  (.single c q, r)

/-- The item at the start of a pattern, and the rest of the pattern. -/
def readItem (b : UInt8) (r : List UInt8) : PItem × List UInt8 :=
  if b = chr '$' ∧ r = [] then (.eos, [])
  else if b = chr '(' then
    match r with
    | c :: r' => if c = chr ')' then (.posCap, r') else (.openCap, r)
    | [] => (.openCap, [])
  else if b = chr ')' then (.closeCap, r)
  else if b = chr '%' then
    match r with
    | [] => readSingle b r
    | d :: r' =>
      if 49 ≤ d ∧ d ≤ 57 then (.backref (d.toNat - 49), r')
      else if d = chr 'b' then
        match r' with
        | x :: y :: r'' => (.balance x y, r'')
        | _ => (.noBalance, [])
      else if d = chr 'f' then
        match r' with
        | e :: r'' => if e = chr '[' then (.frontier (readSet r''), (readSet r'').after) else (.noFrontier, [])
        | [] => (.noFrontier, [])
      else readSingle b r
  else readSingle b r

/-- The items of a pattern. -/
def itemsOf : ℕ → List UInt8 → List PItem
  | 0, _ => []
  | _ + 1, [] => []
  | fuel + 1, b :: r => (readItem b r).1 :: itemsOf fuel (readItem b r).2

variable {pat : List UInt8} {p i fuel : ℕ} {b byte : UInt8} {r text : List UInt8} {first : Bool}

/-! ## Indices -/

/-- What is at an index where the rest of the pattern has a byte. -/
theorem drop_cons (h : pat.drop p = b :: r) :
    pat[p]? = some b ∧ pat.drop (p + 1) = r ∧ p < pat.length ∧ pat.length = p + 1 + r.length := by
  have hlen : (pat.drop p).length = r.length + 1 := by
    rw [h]
    rfl
  rw [List.length_drop] at hlen
  refine ⟨?_, ?_, by omega, by omega⟩
  · have hget : (pat.drop p)[0]? = some b := by
      rw [h]
      rfl
    rwa [List.getElem?_drop, Nat.add_zero] at hget
  · rw [← List.drop_drop, h]
    rfl

theorem drop_nil (h : pat.drop p = []) : pat.length ≤ p := List.drop_eq_nil_iff.mp h

/-! ## Items get shorter -/

theorem setRest_length :
    ∀ (fuel : ℕ) (first : Bool) (text : List UInt8) {body rest : List UInt8},
      setRest fuel first text = some (body, rest) → rest.length < text.length := by
  intro fuel
  induction fuel with
  | zero => exact fun _ _ => nofun
  | succ fuel ih =>
    intro first text body rest h
    cases text with
    | nil => cases h
    | cons b r =>
      unfold setRest at h
      by_cases hclose : b = chr ']' ∧ first = false
      · rw [if_pos hclose] at h
        cases h
        exact Nat.lt_succ_self _
      rw [if_neg hclose] at h
      by_cases hesc : b = chr '%'
      · rw [if_pos hesc] at h
        cases r with
        | nil => cases h
        | cons c r =>
          obtain ⟨q, hq, heq⟩ := Option.map_eq_some_iff.mp h
          have := ih false r (show setRest fuel false r = some (q.1, q.2) from hq)
          cases heq
          simp only [List.length_cons]
          omega
      · rw [if_neg hesc] at h
        obtain ⟨q, hq, heq⟩ := Option.map_eq_some_iff.mp h
        have := ih false r (show setRest fuel false r = some (q.1, q.2) from hq)
        cases heq
        simp only [List.length_cons]
        omega

theorem restOf_length (fuel : ℕ) (first : Bool) (text : List UInt8) : (restOf fuel first text).length ≤ text.length := by
  unfold restOf
  cases h : setRest fuel first text with
  | none => exact Nat.zero_le _
  | some q => exact Nat.le_of_lt (setRest_length fuel first text h)

theorem readSet_length (r : List UInt8) : (readSet r).after.length ≤ r.length := by
  unfold readSet
  split
  · exact Nat.le_refl _
  · split
    · exact Nat.le_succ_of_le (restOf_length _ _ _)
    · exact restOf_length _ _ _

theorem readClass_length (b : UInt8) (r : List UInt8) : (readClass b r).2.length ≤ r.length := by
  unfold readClass
  split
  · split
    · exact Nat.le_refl _
    · exact Nat.le_succ _
  · split
    · exact readSet_length r
    · split <;> exact Nat.le_refl _

theorem readQuant_length (r : List UInt8) : (readQuant r).2.length ≤ r.length := by
  unfold readQuant
  split
  · exact Nat.le_refl _
  · split_ifs <;> simp

theorem readItem_length (b : UInt8) (r : List UInt8) : (readItem b r).2.length ≤ r.length := by
  have hsingle : (readSingle b r).2.length ≤ r.length :=
    (readQuant_length (readClass b r).2).trans (readClass_length b r)
  unfold readItem
  split
  · exact Nat.zero_le _
  split
  · split
    · split
      · exact Nat.le_succ _
      · exact Nat.le_refl _
    · exact Nat.le_refl _
  split
  · exact Nat.le_refl _
  split
  · split
    · exact hsingle
    · split
      · exact Nat.le_succ _
      split
      · split
        · simp only [List.length_cons]
          omega
        · exact Nat.zero_le _
      split
      · split
        · split
          · refine (readSet_length _).trans ?_
            simp only [List.length_cons]
            omega
          · exact Nat.zero_le _
        · exact Nat.zero_le _
      · exact hsingle
  · exact hsingle

/-! ## The end of a set -/

/-- The fuel does not matter, if it is enough. -/
theorem setRest_fuel :
    ∀ (fuel fuel' : ℕ) (first : Bool) (text : List UInt8), text.length < fuel → text.length < fuel' →
      setRest fuel first text = setRest fuel' first text := by
  intro fuel
  induction fuel with
  | zero => intro _ _ text h; omega
  | succ fuel ih =>
    intro fuel' first text h h'
    cases fuel' with
    | zero => omega
    | succ fuel' =>
      cases text with
      | nil => rfl
      | cons b r =>
        rw [List.length_cons] at h h'
        have hr : setRest fuel false r = setRest fuel' false r := ih fuel' false r (by omega) (by omega)
        cases r with
        | nil =>
          unfold setRest
          rw [hr]
        | cons c r =>
          rw [List.length_cons] at h h'
          have hr' : setRest fuel false r = setRest fuel' false r := ih fuel' false r (by omega) (by omega)
          unfold setRest
          rw [hr]
          dsimp only
          rw [hr']

theorem restOf_map {fuel' : ℕ} {first' : Bool} {text' : List UInt8} {f : List UInt8 → List UInt8}
    (h : setRest fuel first text = (setRest fuel' first' text').map fun p => (f p.1, p.2)) :
    restOf fuel first text = restOf fuel' first' text' := by
  unfold restOf
  rw [h, Option.map_map]
  rfl

theorem restOf_fuel {fuel' : ℕ} (h : text.length < fuel) (h' : text.length < fuel') :
    restOf fuel first text = restOf fuel' first text := by
  unfold restOf
  rw [setRest_fuel fuel fuel' first text h h']

/-- `$item_end` finds the closing bracket of a set, or the end of the pattern. -/
theorem setEndFrom_spec (pat : List UInt8) :
    ∀ (fuel i : ℕ) (first : Bool), pat.length - i < fuel →
      ∃ j, setEndFrom pat fuel i first = .ok j ∧ pat.drop j = restOf fuel first (pat.drop i) := by
  intro fuel
  induction fuel with
  | zero =>
    intro i first h
    omega
  | succ fuel ih =>
    intro i first h
    unfold setEndFrom
    cases hs : pat.drop i with
    | nil =>
      rw [if_pos (drop_nil hs)]
      exact ⟨pat.length, rfl, List.drop_length⟩
    | cons b r =>
      obtain ⟨hget, hdrop, hlt, hlen⟩ := drop_cons hs
      rw [if_neg (Nat.not_le.mpr hlt), hget]
      change ∃ j, (if b = chr ']' ∧ first = false then .ok (i + 1)
        else setEndFrom pat fuel (if b = chr '%' then i + 2 else i + 1) false) = .ok j ∧ _
      -- a bracket that comes first is a member of the set
      by_cases hclose : b = chr ']' ∧ first = false
      · rw [if_pos hclose]
        refine ⟨i + 1, rfl, ?_⟩
        unfold restOf setRest
        rw [if_pos hclose]
        exact hdrop
      rw [if_neg hclose]
      -- an escape takes the byte behind it as well
      by_cases hesc : b = chr '%'
      · rw [if_pos hesc]
        obtain ⟨j, hj, hend⟩ := ih (i + 2) false (by omega)
        refine ⟨j, hj, ?_⟩
        rw [hend]
        cases r with
        | nil =>
          rw [List.drop_eq_nil_of_le (show pat.length ≤ i + 2 by simp at hlen; omega)]
          unfold restOf
          conv_rhs => unfold setRest
          rw [if_neg hclose, if_pos hesc]
          cases fuel with
          | zero => rfl
          | succ fuel => rfl
        | cons c r =>
          obtain ⟨-, hdrop', -⟩ := drop_cons hdrop
          rw [hdrop']
          refine (restOf_map (f := (b :: c :: ·)) ?_).symm
          conv_lhs => unfold setRest
          rw [if_neg hclose, if_pos hesc]
      · rw [if_neg hesc]
        obtain ⟨j, hj, hend⟩ := ih (i + 1) false (by omega)
        refine ⟨j, hj, ?_⟩
        rw [hend, hdrop]
        refine (restOf_map (f := (b :: ·)) ?_).symm
        conv_lhs => unfold setRest
        rw [if_neg hclose, if_neg hesc]

/-- The index after `[` and `^`. -/
theorem setStart_spec (h : pat.drop p = chr '[' :: r) :
    (r = [] → setStart pat p = .error .stuck) ∧
      ∀ neg text, readSet r = .set neg text → ∃ i, setStart pat p = .ok (neg, i) ∧ pat.drop i = text ∧ p < i := by
  obtain ⟨-, hdrop, -, hlen⟩ := drop_cons h
  unfold setStart
  dsimp only
  cases r with
  | nil =>
    rw [List.getElem?_eq_none (by simp at hlen; omega)]
    refine ⟨fun _ => rfl, fun neg text hread => ?_⟩
    cases hread
  | cons b r =>
    obtain ⟨hget, hdrop', -⟩ := drop_cons hdrop
    refine ⟨nofun, fun neg text hread => ?_⟩
    rw [hget]
    unfold readSet at hread
    dsimp only at hread
    change ∃ i, (if b = chr '^' then Except.ok (true, p + 1 + 1) else .ok (false, p + 1)) = .ok (neg, i) ∧ _
    by_cases hneg : b = chr '^'
    · rw [if_pos hneg] at hread ⊢
      cases hread
      exact ⟨p + 1 + 1, rfl, hdrop', by omega⟩
    · rw [if_neg hneg] at hread ⊢
      cases hread
      exact ⟨p + 1, rfl, hdrop, by omega⟩

/-- A set that is not at the end of the pattern has elements. -/
theorem readSet_cases (r : List UInt8) : (r = [] ∧ readSet r = .bracket) ∨ ∃ neg text, readSet r = .set neg text := by
  cases r with
  | nil => exact Or.inl ⟨rfl, rfl⟩
  | cons b r =>
    right
    unfold readSet
    dsimp only
    split
    · exact ⟨true, r, rfl⟩
    · exact ⟨false, b :: r, rfl⟩

/-- `$item_end` of a set. -/
theorem itemEnd_set (h : pat.drop p = chr '[' :: r) :
    (readSet r = .bracket → itemEnd pat p = .error .stuck) ∧
      (readSet r ≠ .bracket → ∃ j, itemEnd pat p = .ok j ∧ pat.drop j = (readSet r).after) := by
  obtain ⟨hget, -⟩ := drop_cons h
  obtain ⟨hstuck, hstart⟩ := setStart_spec h
  have hend : itemEnd pat p = setStart pat p >>= fun q => setEndFrom pat (pat.length + 1) q.2 true := by
    unfold itemEnd
    rw [hget]
    rfl
  rw [hend]
  obtain ⟨hr, hread⟩ | ⟨neg, text, hread⟩ := readSet_cases r
  · rw [hread, hstuck hr]
    exact ⟨fun _ => rfl, fun hne => absurd rfl hne⟩
  · rw [hread]
    refine ⟨nofun, fun _ => ?_⟩
    obtain ⟨i, hi, hdrop, -⟩ := hstart neg text hread
    obtain ⟨j, hj, hafter⟩ := setEndFrom_spec pat (pat.length + 1) i true (by omega)
    refine ⟨j, ?_, ?_⟩
    · rw [hi]
      exact hj
    · rw [hafter, hdrop]
      have hlen : text.length ≤ pat.length := by
        rw [← hdrop, List.length_drop]
        omega
      exact restOf_fuel (by omega) (by omega)

/-- `$item_end` of a class that is no set. -/
theorem itemEnd_plain (h : pat.drop p = b :: r) (hb : b ≠ chr '[') :
    ∃ j, itemEnd pat p = .ok j ∧ pat.drop j = (readClass b r).2 := by
  obtain ⟨hget, hdrop, -, hlen⟩ := drop_cons h
  unfold itemEnd readClass
  rw [hget]
  change ∃ j, (if b = chr '%' then .ok (p + 2) else if b ≠ chr '[' then .ok (p + 1) else _) = Except.ok j ∧ _
  by_cases hesc : b = chr '%'
  · rw [if_pos hesc, if_pos hesc]
    refine ⟨p + 2, rfl, ?_⟩
    cases r with
    | nil => exact List.drop_eq_nil_of_le (by simp at hlen; omega)
    | cons c r => exact (drop_cons hdrop).2.1
  · rw [if_neg hesc, if_neg hesc, if_pos hb, if_neg hb]
    refine ⟨p + 1, rfl, ?_⟩
    rw [hdrop]
    split <;> rfl

/-- `$item_end` of a class. -/
theorem itemEnd_spec (h : pat.drop p = b :: r) :
    ((readClass b r).1 = .bracket → itemEnd pat p = .error .stuck) ∧
      ((readClass b r).1 ≠ .bracket → ∃ j, itemEnd pat p = .ok j ∧ pat.drop j = (readClass b r).2) := by
  by_cases hb : b = chr '['
  · subst hb
    exact itemEnd_set h
  · refine ⟨fun hread => ?_, fun _ => itemEnd_plain h hb⟩
    unfold readClass at hread
    rw [if_neg hb] at hread
    split at hread
    · split at hread <;> cases hread
    · split at hread <;> cases hread

/-! ## Tests -/

/-- The fuel does not matter, if it is enough. -/
theorem walkElems_fuel :
    ∀ (fuel fuel' : ℕ) (first : Bool) (text : List UInt8), text.length < fuel → text.length < fuel' →
      walkElems fuel first text = walkElems fuel' first text := by
  intro fuel
  induction fuel with
  | zero => intro _ _ text h; omega
  | succ fuel ih =>
    intro fuel' first text h h'
    cases fuel' with
    | zero => omega
    | succ fuel' =>
      cases text with
      | nil => rfl
      | cons b r =>
        have hshort : ∀ t : List UInt8, t.length ≤ r.length → walkElems fuel false t = walkElems fuel' false t := by
          intro t ht
          rw [List.length_cons] at h h'
          exact ih fuel' false t (by omega) (by omega)
        unfold walkElems
        rw [hshort r (Nat.le_refl _)]
        match r with
        | [] => rfl
        | [c] =>
          dsimp only
          rw [hshort [] (by simp)]
        | d :: c :: r' =>
          dsimp only
          rw [hshort (c :: r') (by simp), hshort r' (by simp; omega)]

/-- `$match_set` reads the elements of the set. -/
theorem matchSetFrom_spec (byte : UInt8) (pat : List UInt8) :
    ∀ (fuel i : ℕ) (first : Bool), pat.length - i < fuel →
      matchSetFrom byte pat fuel i first = .ok ((walkElems fuel first (pat.drop i)).any (·.has byte)) := by
  intro fuel
  induction fuel with
  | zero =>
    intro i first h
    omega
  | succ fuel ih =>
    intro i first h
    unfold matchSetFrom
    cases hs : pat.drop i with
    | nil =>
      rw [if_pos (drop_nil hs)]
      rfl
    | cons b r =>
      obtain ⟨hget, hdrop, hlt, hlen⟩ := drop_cons hs
      have hany : ∀ (e : SetElem) (l : List SetElem), (e :: l).any (·.has byte) = (e.has byte || l.any (·.has byte)) :=
        fun _ _ => rfl
      rw [if_neg (Nat.not_le.mpr hlt), hget, orTrap, Pack.ok_bind]
      unfold walkElems
      by_cases hclose : b = chr ']' ∧ first = false
      · rw [if_pos hclose, if_pos hclose]
        rfl
      rw [if_neg hclose, if_neg hclose]
      by_cases hesc : b = chr '%'
      · rw [if_pos hesc, if_pos hesc]
        cases r with
        | nil =>
          rw [if_pos (by simp at hlen; omega)]
          rfl
        | cons c r =>
          obtain ⟨hget', hdrop', hlt', -⟩ := drop_cons hdrop
          rw [if_neg (Nat.not_le.mpr hlt'), hget', orTrap, Pack.ok_bind, hany, SetElem.has]
          by_cases hc : matchClass byte c = true
          · rw [if_pos hc, hc]
            rfl
          · rw [if_neg hc, ih (i + 2) false (by omega), hdrop', Bool.not_eq_true _ |>.mp hc]
            rfl
      rw [if_neg hesc, if_neg hesc]
      -- a byte that starts no range
      have hlit : (if byte = b then pure true else matchSetFrom byte pat fuel (i + 1) false : Except Fault Bool)
          = .ok ((SetElem.lit b :: walkElems fuel false r).any (·.has byte)) := by
        rw [hany, SetElem.has]
        by_cases hb : byte = b
        · rw [if_pos hb, decide_eq_true hb]
          rfl
        · rw [if_neg hb, ih (i + 1) false (by omega), hdrop, decide_eq_false hb]
          rfl
      match r, hdrop, hlen, hlit with
      | [], _, hlen, hlit =>
        rw [if_neg (by simp at hlen; omega)]
        exact hlit
      | [d], _, hlen, hlit =>
        rw [if_neg (by simp at hlen; omega)]
        exact hlit
      | d :: c :: r', hdrop, hlen, hlit =>
        obtain ⟨hget₁, hdrop₁, hlt₁, -⟩ := drop_cons hdrop
        obtain ⟨hget₂, hdrop₂, hlt₂, -⟩ := drop_cons hdrop₁
        rw [if_pos hlt₂, hget₁, hget₂]
        dsimp only [orTrap]
        rw [Pack.ok_bind]
        by_cases hdash : d = chr '-'
        · rw [if_pos hdash, Pack.ok_bind]
          by_cases hclose' : c ≠ chr ']'
          · rw [if_pos hclose', if_pos (show d = chr '-' ∧ c ≠ chr ']' from ⟨hdash, hclose'⟩), hany, SetElem.has]
            change (if b ≤ byte ∧ byte ≤ c then Except.ok true else matchSetFrom byte pat fuel (i + 3) false) = _
            by_cases hin : b ≤ byte ∧ byte ≤ c
            · rw [if_pos hin, decide_eq_true hin.1, decide_eq_true hin.2]
              rfl
            · rw [if_neg hin, ih (i + 3) false (by omega), hdrop₂]
              have hout : (decide (b ≤ byte) && decide (byte ≤ c)) = false := by
                simpa using hin
              rw [hout]
              rfl
          · rw [if_neg hclose', if_neg (show ¬(d = chr '-' ∧ c ≠ chr ']') from fun h => hclose' h.2)]
            exact hlit
        · rw [if_neg hdash, if_neg (show ¬(d = chr '-' ∧ c ≠ chr ']') from fun h => hdash h.1)]
          exact hlit

/-- `$match_set` tests the byte against the set. -/
theorem matchSet_spec (h : pat.drop p = chr '[' :: r) (hr : readSet r ≠ .bracket) (byte : UInt8) :
    matchSet byte pat p = .ok ((readSet r).walkHas byte) := by
  obtain ⟨-, hbracket⟩ | ⟨neg, text, hread⟩ := readSet_cases r
  · exact absurd hbracket hr
  · obtain ⟨i, hi, hdrop, -⟩ := (setStart_spec h).2 neg text hread
    have hlen : text.length ≤ pat.length := by
      rw [← hdrop, List.length_drop]
      omega
    unfold matchSet
    rw [hi, hread, Pack.ok_bind]
    dsimp only
    rw [matchSetFrom_spec byte pat _ i true (by omega), Pack.ok_bind, hdrop,
      walkElems_fuel (pat.length + 1) (text.length + 1) true text (by omega) (by omega)]
    unfold PClass.walkHas
    dsimp only
    generalize (walkElems (text.length + 1) true text).any (·.has byte) = hit
    cases neg <;> cases hit <;> rfl

/-- `$match_one_item` tests the byte against the class. -/
theorem matchOneItem_spec (h : pat.drop p = b :: r) (byte : UInt8) :
    ((readClass b r).1 = .percent → matchOneItem byte pat p = .error .stuck) ∧
      ((readClass b r).1 ≠ .percent → (readClass b r).1 ≠ .bracket →
        matchOneItem byte pat p = .ok ((readClass b r).1.walkHas byte)) := by
  obtain ⟨hget, hdrop, -, hlen⟩ := drop_cons h
  unfold matchOneItem readClass
  rw [hget, orTrap, Pack.ok_bind]
  by_cases hesc : b = chr '%'
  · rw [if_pos hesc, if_neg (by rw [hesc]; decide), if_pos hesc]
    cases r with
    | nil =>
      rw [List.getElem?_eq_none (by simp at hlen; omega)]
      exact ⟨fun _ => rfl, fun hne => absurd rfl hne⟩
    | cons c r =>
      rw [(drop_cons hdrop).1]
      exact ⟨nofun, fun _ _ => rfl⟩
  rw [if_neg hesc, if_neg hesc]
  by_cases hset : b = chr '['
  · subst hset
    rw [if_pos rfl, if_neg (by decide), if_pos rfl]
    refine ⟨fun hread => ?_, fun _ hne => matchSet_spec h hne byte⟩
    obtain ⟨-, hbracket⟩ | ⟨neg, text, hread'⟩ := readSet_cases r
    · rw [hbracket] at hread
      cases hread
    · rw [hread'] at hread
      cases hread
  rw [if_neg hset, if_neg hset]
  by_cases hany : b = chr '.'
  · rw [if_pos hany, if_pos hany]
    exact ⟨nofun, fun _ _ => rfl⟩
  · rw [if_neg hany, if_neg hany]
    exact ⟨nofun, fun _ _ => rfl⟩

end Lua2wasm.Pattern
