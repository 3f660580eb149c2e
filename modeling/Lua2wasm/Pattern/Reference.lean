import Lua2wasm.Pattern.Starts

/-!
# The reference semantics of patterns

The rules of the reference manual (`luaRules`): the classes of the C locale, the set as its body is read from
front to back, `%b` closing before it opens, and an error for each malformed item. The design notes leave `%b`
with two equal bytes out: it does not match (`notesRules`).

`strictRules` say when the code keeps to the notes: the search comes to no malformed item, and to no set with a
range that ends in `%` for a byte that `$match_set` tests in another way. Such a search comes to the same under
the rules of the code, so `string.find` and `string.match` have the results of the reference
(`find_match_reference`).
-/

namespace Lua2wasm.Pattern

open Table (Fault)
open Pack (chr orTrap)

variable {cl : PClass} {left : Bool}

/-! ## Classes -/

/-- `isdigit`. -/
def isDigit (byte : UInt8) : Bool := 48 ≤ byte && byte ≤ 57

/-- `isupper`. -/
def isUpper (byte : UInt8) : Bool := 65 ≤ byte && byte ≤ 90

/-- `islower`. -/
def isLower (byte : UInt8) : Bool := 97 ≤ byte && byte ≤ 122

/-- `isalpha`. -/
def isAlpha (byte : UInt8) : Bool := isUpper byte || isLower byte

/-- `isalnum`. -/
def isAlnum (byte : UInt8) : Bool := isDigit byte || isAlpha byte

/-- `isxdigit`. -/
def isXDigit (byte : UInt8) : Bool := isDigit byte || (97 ≤ byte && byte ≤ 102) || (65 ≤ byte && byte ≤ 70)

/-- `isspace`. -/
def isSpace (byte : UInt8) : Bool := byte = 32 || (9 ≤ byte && byte ≤ 13)

/-- `iscntrl`. -/
def isCntrl (byte : UInt8) : Bool := byte < 32 || byte = 127

/-- `isgraph`. -/
def isGraph (byte : UInt8) : Bool := 33 ≤ byte && byte ≤ 126

/-- `ispunct`. -/
def isPunct (byte : UInt8) : Bool := isGraph byte && !isAlnum byte

/-- `tolower`. -/
def toLower (byte : UInt8) : UInt8 := if isUpper byte then byte + 32 else byte

/-- The class of a lower-case letter. -/
def classOf (letter : UInt8) : Option (UInt8 → Bool) :=
  if letter = chr 'd' then some isDigit
  else if letter = chr 'a' then some isAlpha
  else if letter = chr 'l' then some isLower
  else if letter = chr 'u' then some isUpper
  else if letter = chr 'w' then some isAlnum
  else if letter = chr 'x' then some isXDigit
  else if letter = chr 's' then some isSpace
  else if letter = chr 'c' then some isCntrl
  else if letter = chr 'g' then some isGraph
  else if letter = chr 'p' then some isPunct
  else if letter = chr 'z' then some (fun byte => byte = 0)
  else none

/-- The test of `%` and a byte: an upper-case letter is the complement, and a byte that is no class is itself. -/
def luaClass (byte letter : UInt8) : Bool :=
  match classOf (toLower letter) with
  | none => byte = letter
  | some test => if isUpper letter then !test byte else test byte

theorem classHit_eq (byte letter : UInt8) : classHit byte letter = (classOf letter).map fun test => test byte := by
  have halnum : (((48 ≤ byte && byte ≤ 57) || (65 ≤ byte && byte ≤ 90)) || (97 ≤ byte && byte ≤ 122) : Bool) =
      isAlnum byte := Bool.or_assoc _ _ _
  unfold classHit classOf
  simp only [apply_ite (Option.map fun test : UInt8 → Bool => test byte), Option.map_some, Option.map_none, halnum]
  rfl

/-- Setting a bit makes a letter lower-case, and no class of another byte. -/
theorem or_lower (letter : UInt8) :
    letter ||| 0x20 = toLower letter ∨ isLower (letter ||| 0x20) = false ∧ isLower (toLower letter) = false := by
  have hall : ∀ v : BitVec 8, UInt8.ofBitVec v ||| 0x20 = toLower (UInt8.ofBitVec v) ∨
      isLower (UInt8.ofBitVec v ||| 0x20) = false ∧ isLower (toLower (UInt8.ofBitVec v)) = false := by
    decide
  exact hall letter.toBitVec

/-- A class has a lower-case letter. -/
theorem classOf_none {letter : UInt8} (h : isLower letter = false) : classOf letter = none := by
  have hne : ∀ c : Char, isLower (chr c) = true → letter ≠ chr c := by
    rintro c hc rfl
    rw [hc] at h
    cases h
  unfold classOf
  rw [if_neg (hne 'd' rfl), if_neg (hne 'a' rfl), if_neg (hne 'l' rfl), if_neg (hne 'u' rfl), if_neg (hne 'w' rfl),
    if_neg (hne 'x' rfl), if_neg (hne 's' rfl), if_neg (hne 'c' rfl), if_neg (hne 'g' rfl), if_neg (hne 'p' rfl),
    if_neg (hne 'z' rfl)]

/-- `$match_class` is the test of the manual. -/
theorem matchClass_eq (byte letter : UInt8) : matchClass byte letter = luaClass byte letter := by
  have hlower : classOf (letter ||| 0x20) = classOf (toLower letter) := by
    obtain heq | ⟨h, h'⟩ := or_lower letter
    · rw [heq]
    · rw [classOf_none h, classOf_none h']
  unfold matchClass luaClass
  rw [classHit_eq, hlower]
  cases classOf (toLower letter) with
  | none => rfl
  | some test => rfl

/-! ## Sets -/

/-- The elements of the body of a set. -/
def luaElems : List UInt8 → List SetElem
  | [] => []
  | [b] => if b = chr '%' then [.cls (chr ']')] else [.lit b]
  | [b, c] => if b = chr '%' then [.cls c] else .lit b :: luaElems [c]
  | b :: c :: d :: r =>
    if b = chr '%' then .cls c :: luaElems (d :: r)
    else if c = chr '-' then .range b d :: luaElems r
    else .lit b :: luaElems (c :: d :: r)

/-- The element has the byte. -/
def SetElem.luaHas (byte : UInt8) : SetElem → Bool
  | .cls letter => luaClass byte letter
  | .range a c => a ≤ byte && byte ≤ c
  | .lit b => byte = b

/-- The body of a set. -/
def setBody (text : List UInt8) : List UInt8 := ((setRest (text.length + 1) true text).map Prod.fst).getD []

/-- The test of a byte against a class. -/
def PClass.luaHas (byte : UInt8) : PClass → Bool
  | .any => true
  | .lit b => byte = b
  | .esc letter => luaClass byte letter
  | .set neg text => (luaElems (setBody text)).any (·.luaHas byte) != neg
  | .bracket => false
  | .percent => false

/-- A range that ends in `%`. -/
def SetElem.toPercent : SetElem → Bool
  | .range _ c => c = chr '%'
  | _ => false

/-- A set with a range that ends in `%`. -/
def PClass.rangeEnd : PClass → Bool
  | .set _ text => (luaElems (setBody text)).any SetElem.toPercent
  | _ => false

theorem luaHas_eq (byte : UInt8) (e : SetElem) : e.luaHas byte = e.has byte := by
  cases e with
  | cls letter => exact (matchClass_eq byte letter).symm
  | range a c => rfl
  | lit b => rfl

/-- A body that is not at its end. -/
theorem setRest_cons {fuel : ℕ} {b : UInt8} {r body rest : List UInt8} {first : Bool}
    (h : setRest (fuel + 1) first (b :: r) = some (body, rest)) :
    (b = chr ']' ∧ first = false ∧ body = []) ∨
    (¬ (b = chr ']' ∧ first = false) ∧ b = chr '%' ∧ ∃ c r' body', r = c :: r' ∧ body = b :: c :: body' ∧
      setRest fuel false r' = some (body', rest)) ∨
    (¬ (b = chr ']' ∧ first = false) ∧ b ≠ chr '%' ∧ ∃ body', body = b :: body' ∧
      setRest fuel false r = some (body', rest)) := by
  unfold setRest at h
  by_cases hclose : b = chr ']' ∧ first = false
  · rw [if_pos hclose] at h
    cases h
    exact Or.inl ⟨hclose.1, hclose.2, rfl⟩
  rw [if_neg hclose] at h
  right
  by_cases hesc : b = chr '%'
  · rw [if_pos hesc] at h
    left
    cases r with
    | nil => cases h
    | cons c r =>
      obtain ⟨⟨body', rest'⟩, hrest, heq⟩ := Option.map_eq_some_iff.mp h
      cases heq
      exact ⟨hclose, hesc, c, r, body', rfl, rfl, hrest⟩
  · rw [if_neg hesc] at h
    right
    obtain ⟨⟨body', rest'⟩, hrest, heq⟩ := Option.map_eq_some_iff.mp h
    cases heq
    exact ⟨hclose, hesc, body', rfl, hrest⟩

/-- `$match_set` reads the elements of the body, unless a range ends in `%`. -/
theorem walkElems_eq :
    ∀ (fuel : ℕ) (first : Bool) (text body rest : List UInt8), text.length < fuel →
      setRest fuel first text = some (body, rest) → (luaElems body).any SetElem.toPercent = false →
      walkElems fuel first text = luaElems body := by
  intro fuel
  induction fuel using Nat.strong_induction_on with
  | _ fuel ih =>
    intro first text body rest hfuel hbody hrange
    cases fuel with
    | zero => omega
    | succ fuel =>
      cases text with
      | nil => cases hbody
      | cons b r =>
        rw [List.length_cons] at hfuel
        obtain ⟨rfl, rfl, rfl⟩ | ⟨hclose, rfl, c, r', body', rfl, rfl, hrest⟩ | ⟨hclose, hesc, body', rfl, hrest⟩ :=
          setRest_cons hbody
        · rfl
        · -- a byte that is escaped
          rw [List.length_cons] at hfuel
          have helems : luaElems (chr '%' :: c :: body') = .cls c :: luaElems body' := by
            cases body' with
            | nil => rfl
            | cons d body' => rfl
          rw [helems, List.any_cons, Bool.or_eq_false_iff] at hrange
          have hih := ih fuel (by omega) false r' body' rest (by omega) hrest hrange.2
          unfold walkElems
          rw [if_neg hclose, if_pos rfl, helems, ← hih]
        · unfold walkElems
          rw [if_neg hclose, if_neg hesc]
          -- the byte is itself if no range starts with it
          have hplain : luaElems (b :: body') = .lit b :: luaElems body' →
              SetElem.lit b :: walkElems fuel false r = luaElems (b :: body') := by
            intro helems
            rw [helems, List.any_cons, Bool.or_eq_false_iff] at hrange
            rw [helems, ih fuel (by omega) false r body' rest (by omega) hrest hrange.2]
          have hnil : luaElems [b] = .lit b :: luaElems [] := by
            unfold luaElems
            rw [if_neg hesc]
          have hcons : ∀ d e rest', d ≠ chr '-' → luaElems (b :: d :: e :: rest') = .lit b :: luaElems (d :: e :: rest') := by
            intro d e rest' hd
            conv => lhs; unfold luaElems
            rw [if_neg hesc, if_neg hd]
          cases fuel with
          | zero => cases hrest
          | succ fuel =>
            cases r with
            | nil => cases hrest
            | cons d r =>
              rw [List.length_cons] at hfuel
              have hd := setRest_cons hrest
              cases r with
              | nil =>
                obtain ⟨-, -, rfl⟩ | ⟨-, -, _, _, _, hr, -⟩ | ⟨-, -, body'', -, hrest'⟩ := hd
                · exact hplain hnil
                · cases hr
                · cases fuel <;> cases hrest'
              | cons c r' =>
                rw [List.length_cons] at hfuel
                dsimp only
                by_cases hdash : d = chr '-' ∧ c ≠ chr ']'
                · -- a range
                  rw [if_pos hdash]
                  obtain ⟨rfl, hc⟩ := hdash
                  obtain ⟨hd, -⟩ | ⟨-, hd, -⟩ | ⟨-, -, body'', rfl, hrest'⟩ := hd
                  · exact absurd hd (by decide)
                  · exact absurd hd (by decide)
                  cases fuel with
                  | zero => omega
                  | succ fuel =>
                    have hrange' : ∀ e rest', luaElems (b :: chr '-' :: e :: rest') = .range b e :: luaElems rest' := by
                      intro e rest'
                      conv => lhs; unfold luaElems
                      rw [if_neg hesc, if_pos rfl]
                    obtain ⟨hc', -⟩ | ⟨-, rfl, c₂, r'', body₃, -, rfl, -⟩ | ⟨-, -, body₃, rfl, hrest₃⟩ :=
                      setRest_cons hrest'
                    · exact absurd hc' hc
                    · rw [hrange', List.any_cons] at hrange
                      cases hrange
                    · rw [hrange', List.any_cons, Bool.or_eq_false_iff] at hrange
                      rw [setRest_fuel fuel (fuel + 1 + 1) false r' (by omega) (by omega)] at hrest₃
                      rw [hrange', ih (fuel + 1 + 1) (by omega) false r' body₃ rest (by omega) hrest₃ hrange.2]
                · rw [if_neg hdash]
                  obtain ⟨-, -, rfl⟩ | ⟨-, rfl, c', r'', body'', -, rfl, -⟩ | ⟨-, -, body'', rfl, hrest'⟩ := hd
                  · exact hplain hnil
                  · exact hplain (hcons (chr '%') c' body'' (by decide))
                  · cases body'' with
                    | nil =>
                      refine hplain ?_
                      conv => lhs; unfold luaElems
                      rw [if_neg hesc]
                    | cons e body'' =>
                      refine hplain (hcons d e body'' ?_)
                      rintro rfl
                      -- then the set is closed here
                      have hc : c = chr ']' := by
                        by_contra hc
                        exact hdash ⟨rfl, hc⟩
                      subst hc
                      cases fuel with
                      | zero => cases hrest'
                      | succ fuel =>
                        have hempty : setRest (fuel + 1) false (chr ']' :: r') = some ([], r') := rfl
                        rw [hempty] at hrest'
                        cases hrest'

/-- The classes that the code reads as the reference does. -/
theorem walkHas_eq {c : PClass} (hc : c.fault left = none) (hrange : c.rangeEnd = false) (byte : UInt8) :
    c.walkHas byte = c.luaHas byte := by
  cases c with
  | any => rfl
  | lit b => rfl
  | esc letter => exact matchClass_eq byte letter
  | set neg text =>
    unfold PClass.fault at hc
    dsimp only at hc
    cases hbody : setRest (text.length + 1) true text with
    | none =>
      rw [hbody] at hc
      cases hc
    | some p =>
      obtain ⟨body, rest⟩ := p
      have hset : setBody text = body := by
        unfold setBody
        rw [hbody]
        rfl
      unfold PClass.rangeEnd at hrange
      dsimp only at hrange
      rw [hset] at hrange
      unfold PClass.walkHas PClass.luaHas
      dsimp only
      rw [hset, walkElems_eq _ _ _ _ _ (Nat.lt_succ_self _) hbody hrange]
      congr 2
      funext e
      exact (luaHas_eq byte e).symm
  | bracket => rfl
  | percent => rfl

/-! ## `%b` -/

/-- The scan of `%b`: it first closes and then opens. -/
def luaBalance (x y : UInt8) : ℕ → ℕ → List UInt8 → Option ℕ
  | _, _, [] => none
  | k, depth, b :: r =>
    if b = y then
      if depth - 1 = 0 then some (k + 1) else luaBalance x y (k + 1) (depth - 1) r
    else luaBalance x y (k + 1) (if b = x then depth + 1 else depth) r

theorem walkBalance_eq {x y : UInt8} (hne : x ≠ y) :
    ∀ (text : List UInt8) (k depth : ℕ), walkBalance x y k depth text = luaBalance x y k depth text := by
  intro text
  induction text with
  | nil => exact fun _ _ => rfl
  | cons b r ih =>
    intro k depth
    unfold walkBalance luaBalance
    by_cases hb : b = y
    · have hbx : b ≠ x := by
        rintro rfl
        exact hne hb
      rw [if_pos hb, if_pos hb, if_neg hbx, ih]
    · rw [if_neg hb, if_neg hb, ih]

/-- With two equal bytes the scan of the code finds no end. -/
theorem walkBalance_same (x : UInt8) :
    ∀ (text : List UInt8) (k depth : ℕ), 0 < depth → walkBalance x x k depth text = none := by
  intro text
  induction text with
  | nil => exact fun _ _ _ => rfl
  | cons b r ih =>
    intro k depth hdepth
    unfold walkBalance
    by_cases hb : b = x
    · rw [if_pos hb, if_pos hb, if_neg (by omega)]
      exact ih _ _ (by omega)
    · rw [if_neg hb, if_neg hb]
      exact ih _ _ hdepth

/-! ## Rules -/

/-- The rules of the reference manual. -/
def luaRules : Rules where
  raises _ := true
  has c b := .ok (c.luaHas b)
  balance x y sub k := .ok (luaBalance x y k 1 (sub.drop k))

/-- The rules of the design notes: `%b` with two equal bytes does not match. -/
def notesRules : Rules where
  raises _ := true
  has c b := .ok (c.luaHas b)
  balance x y sub k := .ok (if x = y then none else luaBalance x y k 1 (sub.drop k))

/-- The rules of the notes, where a set with a range that ends in `%` is an error for a byte that the code tests in
another way. -/
def strictRules : Rules where
  raises _ := true
  has c b := if c.rangeEnd = true ∧ c.walkHas b ≠ c.luaHas b then .error .rangeEnd else .ok (c.luaHas b)
  balance := notesRules.balance

/-- Rules that raise everything, and otherwise test as others do. -/
structure Rules.Below (R R' : Rules) : Prop where
  raises : ∀ e, R.raises e = true
  has : ∀ (c : PClass) (left : Bool) (b : UInt8) (v : Bool), c.fault left = none → R.has c b = .ok v →
    R'.has c b = .ok v
  balance : ∀ x y sub k r, R.balance x y sub k = .ok r → R'.balance x y sub k = .ok r

theorem strict_below_walk : strictRules.Below walkRules := by
  constructor
  · exact fun _ => rfl
  · intro c left b v hc h
    change (if c.rangeEnd = true ∧ c.walkHas b ≠ c.luaHas b then _ else _) = _ at h
    by_cases hrange : c.rangeEnd = true ∧ c.walkHas b ≠ c.luaHas b
    · rw [if_pos hrange] at h
      cases h
    · rw [if_neg hrange] at h
      change Except.ok (c.walkHas b) = _
      rw [← h]
      congr 1
      by_cases hpercent : c.rangeEnd = true
      · by_contra hne
        exact hrange ⟨hpercent, hne⟩
      · exact walkHas_eq hc (Bool.eq_false_iff.mpr hpercent) b
  · intro x y sub k r h
    rw [← h]
    change Except.ok (walkBalance x y k 1 (sub.drop k)) = Except.ok (if x = y then none else _)
    congr 1
    by_cases hxy : x = y
    · subst hxy
      rw [if_pos rfl]
      exact walkBalance_same x _ _ _ Nat.one_pos
    · rw [if_neg hxy]
      exact walkBalance_eq hxy _ _ _

theorem strict_below_notes : strictRules.Below notesRules := by
  constructor
  · exact fun _ => rfl
  · intro c _ b v _ h
    change (if c.rangeEnd = true ∧ c.walkHas b ≠ c.luaHas b then _ else _) = _ at h
    split at h
    · cases h
    · exact h
  · exact fun _ _ _ _ _ h => h

/-! ## Searches -/

variable {R R' : Rules} {sub pat : List UInt8} {s : ℕ} {caps : List Cap}
  {c c' : Outcomes PatError (ℕ × List Cap)} {k k' : ℕ → Outcomes PatError (ℕ × List Cap)}

section

variable (hR : R.Below R')
include hR

theorem approx_bad (e : PatError) (c : Outcomes PatError (ℕ × List Cap)) : Outcomes.Approx (R.bad e) c := by
  unfold Rules.bad
  rw [if_pos (hR.raises e)]
  exact .error e [] c

theorem approx_once (hcl : cl.fault left = none) (h : Outcomes.Approx c c') :
    Outcomes.Approx (once R sub cl s c) (once R' sub cl s c') := by
  unfold once
  cases sub[s]? with
  | none => exact .nil
  | some b =>
    dsimp only
    cases hb : R.has cl b with
    | error e => exact .error e _ _
    | ok v =>
      rw [hR.has cl left b v hcl hb]
      cases v with
      | false => exact .nil
      | true => exact h

theorem approx_lazyFrom (hcl : cl.fault left = none) (h : ∀ t, Outcomes.Approx (k t) (k' t)) :
    ∀ (fuel s : ℕ), Outcomes.Approx (lazyFrom R sub cl k fuel s) (lazyFrom R' sub cl k' fuel s) := by
  intro fuel
  induction fuel with
  | zero => exact fun _ => .nil
  | succ fuel ih =>
    intro s
    unfold lazyFrom
    exact (h s).append (approx_once hR hcl (ih (s + 1)))

theorem countFrom_below (hcl : cl.fault left = none) :
    ∀ (fuel s m : ℕ), countFrom R sub cl fuel s = .ok m → countFrom R' sub cl fuel s = .ok m := by
  intro fuel
  induction fuel with
  | zero => exact fun _ _ h => h
  | succ fuel ih =>
    intro s m h
    unfold countFrom at h ⊢
    cases hs : sub[s]? with
    | none =>
      rw [hs] at h
      exact h
    | some b =>
      rw [hs] at h
      dsimp only at h ⊢
      cases hb : R.has cl b with
      | error e =>
        rw [hb] at h
        cases h
      | ok v =>
        rw [hb] at h
        rw [hR.has cl left b v hcl hb]
        cases v with
        | false => exact h
        | true =>
          dsimp only at h ⊢
          cases hrest : countFrom R sub cl fuel (s + 1) with
          | error e =>
            rw [hrest] at h
            cases h
          | ok m' =>
            rw [hrest] at h
            rw [ih (s + 1) m' hrest]
            exact h

theorem approx_greedy (hcl : cl.fault left = none) (minK : ℕ) (h : ∀ t, Outcomes.Approx (k t) (k' t)) :
    Outcomes.Approx (greedy R sub cl minK s k) (greedy R' sub cl minK s k') := by
  unfold greedy
  cases hm : countFrom R sub cl (sub.length + 1) s with
  | error e => exact .error e _ _
  | ok m =>
    rw [countFrom_below hR hcl _ _ _ hm]
    exact Outcomes.Approx.flatMap _ fun t _ => h t

theorem approx_quantified (hcl : cl.fault left = none) (q : Quant) (h : ∀ t, Outcomes.Approx (k t) (k' t)) :
    Outcomes.Approx (quantified R sub cl q s k) (quantified R' sub cl q s k') := by
  cases q with
  | one => exact approx_once hR hcl (h (s + 1))
  | opt => exact (approx_once hR hcl (h (s + 1))).append (h s)
  | lazy => exact approx_lazyFrom hR hcl h _ s
  | star => exact approx_greedy hR hcl 0 h
  | plus => exact approx_greedy hR hcl 1 h

theorem approx_guarded (h : cl.fault left = none → Outcomes.Approx c c') :
    Outcomes.Approx (guarded R cl left c) (guarded R' cl left c') := by
  unfold guarded
  cases hcl : cl.fault left with
  | none => exact h hcl
  | some e =>
    dsimp only
    rw [if_pos (hR.raises e)]
    exact .error e [] _

/-- An item has the same outcomes under both rules, up to an error of the first. -/
theorem approx_item (it : PItem) {k k' : Cont} (h : ∀ t caps, Outcomes.Approx (k t caps) (k' t caps)) :
    Outcomes.Approx (it.outcomes R sub s caps k) (it.outcomes R' sub s caps k') := by
  unfold PItem.outcomes
  cases it with
  | eos =>
    dsimp only
    split
    · exact h s caps
    · exact .nil
  | posCap =>
    dsimp only
    split
    · exact approx_bad hR _ _
    · exact h s _
  | openCap =>
    dsimp only
    split
    · exact approx_bad hR _ _
    · exact h s _
  | closeCap =>
    cases lastOpen caps caps.length with
    | none => exact approx_bad hR _ _
    | some r => exact h s _
  | backref idx =>
    dsimp only
    split
    · split
      · exact h _ caps
      · exact .nil
    · exact .nil
    · exact approx_bad hR _ _
  | balance x y =>
    dsimp only
    split
    · cases hb : R.balance x y sub (s + 1) with
      | error e => exact .error e _ _
      | ok r =>
        -- the rules differ on errors only
        rw [hR.balance x y sub (s + 1) r hb]
        cases r with
        | none => exact .nil
        | some stop => exact h stop caps
    · exact .nil
  | noBalance => exact approx_bad hR _ _
  | frontier cl =>
    refine approx_guarded hR fun hcl => ?_
    -- the byte before and the byte after are tested
    generalize (if 0 < s then sub.getD (s - 1) 0 else 0) = prev
    cases hprev : R.has cl prev with
    | error e => exact .error e _ _
    | ok before =>
      rw [hR.has cl true prev before hcl hprev]
      cases before with
      | true => exact .nil
      | false =>
        unfold whenHas
        cases hcur : R.has cl (sub.getD s 0) with
        | error e => exact .error e _ _
        | ok here =>
          rw [hR.has cl true _ here hcl hcur]
          cases here with
          | true => exact h s caps
          | false => exact .nil
  | noFrontier => exact approx_bad hR _ _
  | single cl q => exact approx_guarded hR fun hcl => approx_quantified hR hcl q fun t => h t caps

theorem approx_outcomes (items : List PItem) :
    ∀ (s : ℕ) (caps : List Cap), Outcomes.Approx (outcomes R sub items s caps) (outcomes R' sub items s caps) := by
  induction items with
  | nil => exact fun s caps => .cons (s, caps) .nil
  | cons it items ih => exact fun s caps => approx_item hR it ih

/-- A search without an error comes to the same under both rules. -/
theorem searchWith_below {ppos : ℕ} {anchored : Bool} {take : ℕ → Bool} {r : Option (ℕ × ℕ × List Cap)} :
    ∀ (todo sp : ℕ), searchWith R sub pat ppos anchored take todo sp = .ok r →
      searchWith R' sub pat ppos anchored take todo sp = .ok r := by
  intro todo
  induction todo with
  | zero => exact fun _ h => h
  | succ todo ih =>
    intro sp h
    unfold searchWith at h ⊢
    cases hm : matchAt R sub pat ppos sp with
    | error e =>
      rw [hm] at h
      cases h
    | ok m =>
      have hm' : matchAt R' sub pat ppos sp = .ok m := (approx_outcomes hR _ sp []).first_ok hm
      rw [hm] at h
      rw [hm']
      dsimp only at h ⊢
      cases hf : m.filter fun r => take r.1 with
      | some m =>
        rw [hf] at h
        exact h
      | none =>
        rw [hf] at h
        dsimp only at h ⊢
        by_cases hanch : anchored = true
        · rw [if_pos hanch] at h ⊢
          exact h
        · rw [if_neg hanch] at h ⊢
          exact ih (sp + 1) h

end

/-! ## `find` and `match` -/

/-- The position that a search starts at: a negative one counts from the end. -/
def luaStart (sub : List UInt8) (init : Option Int64) : Option ℕ :=
  let z := match init with
    | none => 1
    | some v => v.toInt
  let pos : ℤ := if 0 < z then z else if z = 0 ∨ z < -sub.length then 1 else sub.length + z + 1
  if pos - 1 > sub.length then none else some (pos - 1).toNat

/-- `string.find` under some rules. -/
def luaFind (R : Rules) (sub pat : List UInt8) (init : Option Int64) : Except PatError (List PatVal) :=
  match luaStart sub init with
  | none => .ok [.nil]
  | some sp => findWith R sub pat sp

/-- `string.match` under some rules. -/
def luaMatch (R : Rules) (sub pat : List UInt8) (init : Option Int64) : Except PatError (List PatVal) :=
  match luaStart sub init with
  | none => .ok [.nil]
  | some sp => matchWith R sub pat sp

/-- A start that is a number of 32 bits. -/
def InitFits (init : Option Int64) : Prop := ∀ v, init = some v → -2^31 ≤ v.toInt ∧ v.toInt < 2^31

/-- The items of a pattern, without its anchor. -/
def patItems (pat : List UInt8) : List PItem := itemsOf (pat.length + 1) (pat.drop (patAnchorStart pat))

theorem wrap32_eq {v : Int64} (h : -2^31 ≤ v.toInt ∧ v.toInt < 2^31) : wrap32 v = v.toInt := by
  have hcond : v.toInt = if 2 * v.toUInt64.toNat < 2^64 then (v.toUInt64.toNat : ℤ) else v.toUInt64.toNat - (2^64 : ℕ) :=
    BitVec.toInt_eq_toNat_cond v.toBitVec
  have hlt : v.toUInt64.toNat < 2^64 := v.toUInt64.toNat_lt
  unfold wrap32 Pack.s32 Pack.u32
  split at hcond
  · rw [if_pos (by omega)]
    omega
  · rw [if_neg (by omega)]
    omega

theorem normStrInit_eq (z : ℤ) (n : ℕ) :
    normStrInit z n = if 0 < z then z else if z = 0 ∨ z < -n then 1 else n + z + 1 := by
  unfold normStrInit
  dsimp only
  split_ifs <;> omega

theorem startPos_eq {init : Option Int64} (h : InitFits init) : startPos sub init = luaStart sub init := by
  have hpos : ∀ pos : ℤ, (if pos > sub.length + 1 then none else some (pos - 1).toNat) =
      if pos - 1 > sub.length then none else some (pos - 1).toNat := by
    intro pos
    by_cases hend : pos > sub.length + 1
    · rw [if_pos hend, if_pos (by omega)]
    · rw [if_neg hend, if_neg (by omega)]
  cases init with
  | none =>
    change (if normStrInit 1 sub.length > sub.length + 1 then none else some (normStrInit 1 sub.length - 1).toNat) = _
    rw [hpos, normStrInit_eq]
    rfl
  | some v =>
    change (if normStrInit (wrap32 v) sub.length > sub.length + 1 then none
      else some (normStrInit (wrap32 v) sub.length - 1).toNat) = _
    rw [wrap32_eq (h v rfl), hpos, normStrInit_eq]
    rfl

theorem lazyFrom_notes :
    ∀ (fuel s : ℕ), lazyFrom notesRules sub cl k fuel s = lazyFrom luaRules sub cl k fuel s := by
  intro fuel
  induction fuel with
  | zero => exact fun _ => rfl
  | succ fuel ih =>
    intro s
    unfold lazyFrom
    rw [ih]
    rfl

theorem countFrom_notes :
    ∀ (fuel s : ℕ), countFrom notesRules sub cl fuel s = countFrom luaRules sub cl fuel s := by
  intro fuel
  induction fuel with
  | zero => exact fun _ => rfl
  | succ fuel ih =>
    intro s
    unfold countFrom
    rw [ih]
    rfl

theorem quantified_notes (cl : PClass) (q : Quant) (s : ℕ) (k : ℕ → Outcomes PatError (ℕ × List Cap)) :
    quantified notesRules sub cl q s k = quantified luaRules sub cl q s k := by
  cases q with
  | one => rfl
  | opt => rfl
  | lazy => exact lazyFrom_notes _ s
  | star =>
    unfold quantified greedy
    rw [countFrom_notes]
  | plus =>
    unfold quantified greedy
    rw [countFrom_notes]

/-- Without a `%b` of two equal bytes the notes are the manual. -/
theorem outcomes_notes {items : List PItem} (h : ∀ x, PItem.balance x x ∉ items) :
    outcomes notesRules sub items = outcomes luaRules sub items := by
  induction items with
  | nil => rfl
  | cons it items ih =>
    have hrest := ih fun x hx => h x (List.mem_cons_of_mem it hx)
    funext s caps
    change it.outcomes notesRules sub s caps (outcomes notesRules sub items) =
      it.outcomes luaRules sub s caps (outcomes luaRules sub items)
    rw [hrest]
    cases it with
    | balance x y =>
      have hxy : x ≠ y := by
        rintro rfl
        exact h x List.mem_cons_self
      have hbal : notesRules.balance x y sub (s + 1) = luaRules.balance x y sub (s + 1) := by
        change Except.ok (if x = y then none else _) = _
        rw [if_neg hxy]
        rfl
      unfold PItem.outcomes
      dsimp only
      rw [hbal]
    | single cl q =>
      unfold PItem.outcomes
      dsimp only
      rw [quantified_notes]
      rfl
    | _ => rfl

theorem searchAll_notes (h : ∀ x, PItem.balance x x ∉ patItems pat) (sp : ℕ) :
    searchAll notesRules sub pat sp = searchAll luaRules sub pat sp := by
  have hmatch : ∀ t, matchAt notesRules sub pat (patAnchorStart pat) t = matchAt luaRules sub pat (patAnchorStart pat) t := by
    intro t
    unfold matchAt
    change (outcomes notesRules sub (patItems pat) t []).first = _
    rw [outcomes_notes h]
    rfl
  have hsearch : ∀ (todo t : ℕ), searchWith notesRules sub pat (patAnchorStart pat) (patAnchorStart pat = 1)
      (fun _ => true) todo t = searchWith luaRules sub pat (patAnchorStart pat) (patAnchorStart pat = 1)
      (fun _ => true) todo t := by
    intro todo
    induction todo with
    | zero => exact fun _ => rfl
    | succ todo ih =>
      intro t
      unfold searchWith
      rw [hmatch, ih]
  exact hsearch _ sp

/-- The results of a search that is safe under rules that raise everything. -/
theorem results_below {sp : ℕ} {vals : ℕ → ℕ → List Cap → Option (List PatVal)} (hR : R.Below R')
    (hvals : ∀ sp stop caps, vals sp stop caps = none ↔ ¬ AllClosed caps)
    (hsafe : SafeSearch AllClosed (searchAll R sub pat sp)) :
    ∃ vs, resultsWith vals (searchAll R sub pat sp) = .ok vs ∧ resultsWith vals (searchAll R' sub pat sp) = .ok vs := by
  cases hr : searchAll R sub pat sp with
  | error e =>
    rw [hr] at hsafe
    exact hsafe.elim
  | ok r =>
    have hr' : searchAll R' sub pat sp = .ok r := searchWith_below hR _ sp hr
    have hsome := (resultsWith_safe hvals).mpr hsafe
    rw [hr] at hsome
    rw [hr']
    cases hvs : resultsWith vals (.ok r) with
    | error e =>
      rw [hvs] at hsome
      exact absurd rfl hsome
    | ok vs => exact ⟨vs, rfl, rfl⟩

/-- Where the search comes to no error of the strict rules and leaves no capture open, `string.find` and `string.match`
have the results of the notes; and these are those of the manual if the pattern has no `%b` of two equal bytes. -/
theorem find_match_reference (sub pat : List UInt8) (init : Option Int64) (hinit : InitFits init)
    (hsafe : ∀ sp, luaStart sub init = some sp → SafeSearch AllClosed (searchAll strictRules sub pat sp)) :
    (∃ vs, luaFind notesRules sub pat init = .ok vs ∧ find sub pat init false = .ok vs) ∧
    (∃ vs, luaMatch notesRules sub pat init = .ok vs ∧ matchStr sub pat init = .ok vs) ∧
    ((∀ x, PItem.balance x x ∉ patItems pat) →
      luaFind notesRules sub pat init = luaFind luaRules sub pat init ∧
      luaMatch notesRules sub pat init = luaMatch luaRules sub pat init) := by
  rw [find_eq, matchStr_eq, startPos_eq hinit]
  unfold luaFind luaMatch
  cases hstart : luaStart sub init with
  | none => exact ⟨⟨_, rfl, rfl⟩, ⟨_, rfl, rfl⟩, fun _ => ⟨rfl, rfl⟩⟩
  | some sp =>
    have hsp := hsafe sp hstart
    have hfind : ∀ (sp stop : ℕ) (caps : List Cap), ((caps.mapM (Cap.value sub)).map
        fun vs => PatVal.int (sp + 1) :: PatVal.int stop :: vs) = none ↔ ¬ AllClosed caps := by
      intro sp stop caps
      rw [Option.map_eq_none_iff, mapM_value]
    have hmatch : ∀ sp stop caps, wholeOr sub sp stop caps = none ↔ ¬ AllClosed caps := fun _ _ _ => wholeOr_none
    dsimp only
    unfold findWith matchWith
    refine ⟨?_, ?_, ?_⟩
    · obtain ⟨vs, hs, hnotes⟩ := results_below strict_below_notes hfind hsp
      obtain ⟨vs', hs', hwalk⟩ := results_below strict_below_walk hfind hsp
      rw [hs] at hs'
      cases hs'
      exact ⟨vs, hnotes, by rw [hwalk]; rfl⟩
    · obtain ⟨vs, hs, hnotes⟩ := results_below strict_below_notes hmatch hsp
      obtain ⟨vs', hs', hwalk⟩ := results_below strict_below_walk hmatch hsp
      rw [hs] at hs'
      cases hs'
      exact ⟨vs, hnotes, by rw [hwalk]; rfl⟩
    · intro hbal
      rw [searchAll_notes hbal]
      exact ⟨rfl, rfl⟩

/-- `a=b` under `(.)=(.)`. -/
theorem find_match_reference_pair :
    (∃ vs, luaFind notesRules [97, 61, 98] [40, 46, 41, 61, 40, 46, 41] none = .ok vs ∧
      find [97, 61, 98] [40, 46, 41, 61, 40, 46, 41] none false = .ok vs) ∧
    ∃ vs, luaMatch notesRules [97, 61, 98] [40, 46, 41, 61, 40, 46, 41] none = .ok vs ∧
      matchStr [97, 61, 98] [40, 46, 41, 61, 40, 46, 41] none = .ok vs := by
  have hresult : searchAll strictRules [97, 61, 98] [40, 46, 41, 61, 40, 46, 41] 0 =
      .ok (some (0, 3, [.closed 0 1, .closed 2 1])) := by
    decide
  have hstart : luaStart [97, 61, 98] none = some 0 := by
    decide
  have hall := find_match_reference [97, 61, 98] [40, 46, 41, 61, 40, 46, 41] none nofun fun sp hsp => by
    rw [hstart] at hsp
    cases hsp
    rw [hresult]
    change AllClosed [.closed 0 1, .closed 2 1]
    decide
  exact ⟨hall.1, hall.2.1⟩

/-- `xabcx` under `%bxx`: the manual finds all of it. -/
theorem find_same_delims :
    luaFind luaRules [120, 97, 98, 99, 120] [37, 98, 120, 120] none = .ok [.int 1, .int 5] ∧
    find [120, 97, 98, 99, 120] [37, 98, 120, 120] none false = .ok [.nil] := by
  constructor
  · decide
  · decide

end Lua2wasm.Pattern
