import Lua2wasm.Pattern.Init
import Lua2wasm.Format.Tostring

/-!
# `select` and `tonumber` with a base

Both builtins of `runtime/prelude/baselib.wat` narrow their number to 32 bits before they test it. `select` then does
what Lua says exactly when `SelectKept` holds of the number and the count of the other arguments. `tonumber` hands the
string to `parseLuaNumber` of `runtime/host-bindings.mjs`, which reads the numerals with the white space of JavaScript
around them (`parseBase_iff`). In that the no-break space is more than Lua allows.
-/

namespace Lua2wasm.Baselib

open Table (Fault Val)
open Pattern (wrap32)
open Format (takeSign trim isSpace)

/-! ## `select` -/

/-- `$as_int`: the cast traps on what is no integer. -/
def asInt : Val → Except Fault Int64
  | .int i => .ok i
  | _ => .error .stuck

/-- `$args_at`. -/
def argsAt (args : List Val) (i : ℕ) : Val := args.getD i .nil

/-- `$args_slice`. -/
def argsSlice (args : List Val) (first : ℤ) : List Val :=
  if args.length ≤ first then [] else args.drop first.toNat

/-- `$need_arg`. -/
def needArg (args : List Val) (n : ℕ) : Except Fault Unit :=
  if args.length ≤ n then .error (.raised "value expected") else .ok ()

/-- The selector is the string `#`. -/
def isCount : Val → Bool
  | .str _ bytes => bytes = [35]
  | _ => false

/-- `$builtin_select`. -/
def select (args : List Val) : Except Fault (List Val) := do
  if args.length = 0 then throw (.raised "value expected")
  let sel := argsAt args 0
  if isCount sel then return [.int (Int64.ofInt (args.length - 1))]
  let idx := wrap32 (← asInt sel)
  let idx := if idx < 0 then (args.length - 1 : ℤ) + (idx + 1) else idx
  if idx < 1 then throw (.raised "value out of range")
  return argsSlice args idx

/-- What `select(n, ...)` gives in Lua, or an error. -/
def luaSelect (n : ℤ) (rest : List Val) : Option (List Val) :=
  if n = 0 ∨ n < -rest.length then none
  else if 0 < n then some (rest.drop (n - 1).toNat)
  else some (rest.drop (rest.length + n).toNat)

/-- An outcome is the one that is wanted, a list of values or some error. -/
def Answers (wanted : Option (List Val)) (r : Except Fault (List Val)) : Prop :=
  match wanted with
  | none => ∃ msg, r = .error (.raised msg)
  | some vs => r = .ok vs

/-- For `c` arguments after the selector the narrowed number `wrap32 n` selects what `n` does: it is the same number,
or both are beyond the last argument, or both are an error. -/
def SelectKept (c : ℕ) (n : Int64) : Prop :=
  -2^31 ≤ n.toInt ∧ n.toInt < 2^31 ∨ 2^31 ≤ n.toInt ∧ (c : ℤ) < wrap32 n ∨
    n.toInt < -2^31 ∧ (wrap32 n = 0 ∨ wrap32 n < -c)

section

variable {rest : List Val} {n : Int64}

/-- `select` is Lua's, of the narrowed number. -/
theorem select_eq (n : Int64) (rest : List Val) :
    select (.int n :: rest) = match luaSelect (wrap32 n) rest with
      | none => .error (.raised "value out of range")
      | some vs => .ok vs := by
  have hlen : (Val.int n :: rest).length = rest.length + 1 := rfl
  unfold select
  rw [if_neg (show ¬(Val.int n :: rest).length = 0 by omega)]
  change (if (if wrap32 n < 0 then ((rest.length + 1 : ℕ) - 1 : ℤ) + (wrap32 n + 1) else wrap32 n) < 1 then
    Except.error (Fault.raised "value out of range") else Except.ok (argsSlice (.int n :: rest)
      (if wrap32 n < 0 then ((rest.length + 1 : ℕ) - 1 : ℤ) + (wrap32 n + 1) else wrap32 n))) = _
  unfold luaSelect argsSlice
  by_cases hneg : wrap32 n < 0
  · rw [if_pos hneg]
    by_cases hfar : wrap32 n < -rest.length
    · rw [if_pos (by omega), if_pos (Or.inr hfar)]
    · rw [if_neg (by omega), if_neg (by omega), if_neg (by omega), if_neg (by omega)]
      have hdrop : (((rest.length + 1 : ℕ) - 1 : ℤ) + (wrap32 n + 1)).toNat = (rest.length + wrap32 n).toNat + 1 := by
        omega
      rw [hdrop, List.drop_succ_cons]
  · rw [if_neg hneg]
    by_cases hzero : wrap32 n = 0
    · rw [if_pos (by omega), if_pos (Or.inl hzero)]
    · rw [if_neg (show ¬wrap32 n < 1 by omega), if_neg (show ¬(wrap32 n = 0 ∨ wrap32 n < -rest.length) by omega),
        if_pos (show 0 < wrap32 n by omega)]
      have hdrop : (wrap32 n).toNat = (wrap32 n - 1).toNat + 1 := by omega
      rw [hdrop, List.drop_succ_cons]
      split_ifs with hend
      · dsimp only
        rw [List.drop_eq_nil_of_le (by omega)]
      · rfl

/-- What `select` answers depends on the narrowed number only. -/
theorem select_answers_iff (wanted : Option (List Val)) :
    Answers wanted (select (.int n :: rest)) ↔ luaSelect (wrap32 n) rest = wanted := by
  rw [select_eq]
  unfold Answers
  cases wanted <;> cases luaSelect (wrap32 n) rest <;> simp

theorem luaSelect_none_iff {n : ℤ} : luaSelect n rest = none ↔ n = 0 ∨ n < -rest.length := by
  unfold luaSelect
  split_ifs with h
  · exact iff_of_true rfl h
  · exact iff_of_false (by simp) h
  · exact iff_of_false (by simp) h

/-- `select` gives nothing only beyond the last argument. -/
theorem luaSelect_nil_iff {n : ℤ} : luaSelect n rest = some [] ↔ rest.length < n := by
  unfold luaSelect
  split_ifs with h hpos
  · exact iff_of_false (by simp) (by omega)
  · rw [Option.some_inj, List.drop_eq_nil_iff]
    omega
  · rw [Option.some_inj, List.drop_eq_nil_iff]
    omega

theorem select_iff (hrest : rest.length < 2^31) :
    Answers (luaSelect n.toInt rest) (select (.int n :: rest)) ↔ SelectKept rest.length n := by
  have hfits := @Pattern.wrap32_eq n
  rw [select_answers_iff]
  unfold SelectKept
  by_cases hn : -2^31 ≤ n.toInt ∧ n.toInt < 2^31
  · rw [hfits hn]
    exact iff_of_true rfl (Or.inl hn)
  rcases lt_or_ge n.toInt 0 with hneg | hpos
  · rw [luaSelect_none_iff.mpr (Or.inr (show n.toInt < -rest.length by omega)), luaSelect_none_iff]
    omega
  · rw [luaSelect_nil_iff.mpr (show (rest.length : ℤ) < n.toInt by omega), luaSelect_nil_iff]
    omega

end

/-! ## Numerals in a base -/

/-- `[0-9a-zA-Z]`. -/
def isAlnum (c : Char) : Bool :=
  (48 ≤ c.toNat && c.toNat ≤ 57) || (97 ≤ c.toNat && c.toNat ≤ 122) || (65 ≤ c.toNat && c.toNat ≤ 90)

/-- The code of a letter or a digit, in lower case. -/
def lowerCode (c : Char) : ℤ := if 65 ≤ c.toNat ∧ c.toNat ≤ 90 then c.toNat + 32 else c.toNat

/-- What a letter or a digit counts. -/
def digitOf (c : Char) : ℤ :=
  if 48 ≤ lowerCode c ∧ lowerCode c ≤ 57 then lowerCode c - 48 else lowerCode c - 97 + 10

/-- `/^([+-]?)([0-9a-zA-Z]+)$/`, with the parts. -/
def matchBased (s : List Char) : Option (Bool × List Char) :=
  let (negative, s) := takeSign s
  if s ≠ [] && s.all isAlnum then some (negative, s) else none

/-- The loop over the digits. -/
def accumulate (base : ℤ) : ℤ → List Char → Option ℤ
  | acc, [] => some acc
  | acc, c :: digits =>
    if digitOf c < 0 ∨ base ≤ digitOf c then none else accumulate base (acc * base + digitOf c) digits

/-- `parseLuaNumber` with a base. -/
def parseBase (s : List Char) (base : ℤ) : Option Int64 :=
  let s := trim s
  if s = [] then none
  else if base < 2 ∨ 36 < base then none
  else match matchBased s with
  | none => none
  | some (negative, digits) =>
    (accumulate base 0 digits).map fun acc => Int64.ofInt ((if negative then -1 else 1) * acc)

/-- `readLuaString`: bytes as the characters that the host sees. -/
def readLuaString (bytes : List UInt8) : List Char := bytes.map fun b => Char.ofNat b.toNat

/-- `$host_parse_num`. -/
def hostParseNum (hexFloat : List Char → F64) (bytes : List UInt8) (base : ℤ) : Val :=
  if base ≠ 0 then (parseBase (readLuaString bytes) base).elim .nil .int
  else match Format.parseLuaNumber hexFloat (readLuaString bytes) with
  | none => .nil
  | some (.int i) => .int i
  | some (.float f) => .float f

/-- `$builtin_tonumber`. -/
def tonumber (hexFloat : List Char → F64) (args : List Val) : Except Fault (List Val) := do
  needArg args 0
  let v := argsAt args 0
  let base ← (if argsAt args 1 = .nil then pure none else do return some (wrap32 (← asInt (argsAt args 1))))
  match base with
  | none =>
    match v with
    | .int i => return [.int i]
    | .float f => return [.float f]
    | .str _ bytes => return [hostParseNum hexFloat bytes 0]
    | _ => return [.nil]
  | some base =>
    if base < 2 ∨ 36 < base then throw (.raised "base out of range")
    match v with
    | .str _ bytes => return [hostParseNum hexFloat bytes base]
    | _ => return [.nil]

/-- The white space of Lua, C's `isspace`. -/
def luaSpace (c : Char) : Bool := (9 ≤ c.toNat && c.toNat ≤ 13) || c = ' '

/-- The digit that a character is. -/
def luaDigit (c : Char) : Option ℕ :=
  if 48 ≤ c.toNat ∧ c.toNat ≤ 57 then some (c.toNat - 48)
  else if 97 ≤ c.toNat ∧ c.toNat ≤ 122 then some (c.toNat - 87)
  else if 65 ≤ c.toNat ∧ c.toNat ≤ 90 then some (c.toNat - 55)
  else none

/-- A sign or none, and digits below the base: a numeral that is worth `z`. -/
def Numeral (b : ℕ) (t : List Char) (z : ℤ) : Prop :=
  ∃ (sign digits : List Char) (ds : List ℕ), t = sign ++ digits ∧ (sign = [] ∨ sign = ['+'] ∨ sign = ['-']) ∧
    digits ≠ [] ∧ digits.map luaDigit = ds.map some ∧ (∀ d ∈ ds, d < b) ∧
    z = (if sign = ['-'] then -1 else 1) * (Nat.ofDigits b ds.reverse : ℕ)

/-- A numeral with white space around it. -/
def Padded (space : Char → Bool) (b : ℕ) (s : List Char) (z : ℤ) : Prop :=
  ∃ front t back, s = front ++ t ++ back ∧ (∀ c ∈ front, space c) ∧ (∀ c ∈ back, space c) ∧ Numeral b t z

/-- An outcome is what Lua says `tonumber(s, b)` is. -/
def IsTonumber (s : List UInt8) (b : ℤ) (r : Except Fault (List Val)) : Prop :=
  if b < 2 ∨ 36 < b then ∃ msg, r = .error (.raised msg)
  else (∃ z, Padded luaSpace b.toNat (readLuaString s) z ∧ r = .ok [.int (Int64.ofInt z)]) ∨
    (¬∃ z, Padded luaSpace b.toNat (readLuaString s) z) ∧ r = .ok [.nil]

/-- The base is one, or is still none when it is narrowed; and the string is no numeral that has a no-break space
beside it. -/
def TonumberKept (s : List UInt8) (b : Int64) : Prop :=
  if b.toInt < 2 ∨ 36 < b.toInt then wrap32 b < 2 ∨ 36 < wrap32 b
  else 0xA0 ∉ s ∨ ¬∃ z, Padded isSpace b.toInt.toNat (readLuaString s) z

section

variable {s t digits front back : List Char} {c : Char} {b d : ℕ} {z acc : ℤ}

theorem luaDigit_eq_some_iff : luaDigit c = some d ↔ isAlnum c = true ∧ digitOf c = d := by
  unfold luaDigit isAlnum digitOf lowerCode
  simp only [Bool.or_eq_true, Bool.and_eq_true, decide_eq_true_eq]
  split_ifs <;> simp <;> omega

/-- The loop adds the digits to what it has. -/
theorem accumulate_eq (digits : List Char) :
    ∀ acc, (∀ c ∈ digits, isAlnum c = true) → (accumulate b acc digits = some z ↔
      ∃ ds : List ℕ, digits.map luaDigit = ds.map some ∧ (∀ d ∈ ds, d < b) ∧
        z = acc * b^ds.length + (Nat.ofDigits b ds.reverse : ℕ)) := by
  induction digits with
  | nil =>
    intro acc _
    unfold accumulate
    constructor
    · intro h
      exact ⟨[], rfl, by simp, by simpa using h.symm⟩
    · rintro ⟨ds, hds, -, hz⟩
      obtain rfl : ds = [] := by simpa using hds.symm
      simpa using hz.symm
  | cons c digits ih =>
    intro acc hall
    have hc := hall c List.mem_cons_self
    have hrest := fun c' hc' => hall c' (List.mem_cons_of_mem _ hc')
    -- the digit `e` and the digits `es` behind it
    have hvalue : ∀ (e : ℕ) (es : List ℕ), acc * (b : ℤ)^(e :: es).length + (Nat.ofDigits b (e :: es).reverse : ℕ) =
        (acc * b + e) * b^es.length + (Nat.ofDigits b es.reverse : ℕ) := by
      intro e es
      rw [List.reverse_cons, Nat.ofDigits_append, Nat.ofDigits_singleton, List.length_reverse, List.length_cons]
      push_cast
      ring
    unfold accumulate
    constructor
    · intro h
      split_ifs at h with hbad
      obtain ⟨es, hes, hlt, hz⟩ := (ih _ hrest).mp h
      have he : luaDigit c = some (digitOf c).toNat := luaDigit_eq_some_iff.mpr ⟨hc, by omega⟩
      refine ⟨(digitOf c).toNat :: es, ?_, ?_, ?_⟩
      · rw [List.map_cons, List.map_cons, hes, he]
      · intro d hd
        rcases List.mem_cons.mp hd with rfl | hd
        · omega
        · exact hlt d hd
      · rw [hvalue, hz]
        have : ((digitOf c).toNat : ℤ) = digitOf c := by omega
        rw [this]
    · rintro ⟨ds, hds, hlt, hz⟩
      obtain ⟨e, es, rfl⟩ : ∃ e es, ds = e :: es := by
        cases ds with
        | nil => exact absurd hds (by simp)
        | cons e es => exact ⟨e, es, rfl⟩
      rw [List.map_cons, List.map_cons, List.cons.injEq, luaDigit_eq_some_iff] at hds
      have he := hlt e List.mem_cons_self
      rw [if_neg (by omega), ih _ hrest]
      exact ⟨es, hds.2, fun d hd => hlt d (List.mem_cons_of_mem _ hd), by rw [hz, hvalue, hds.1.2]⟩

/-- The sign that is taken is one. -/
theorem takeSign_eq_iff (hdigits : digits.head? ≠ some '-' ∧ digits.head? ≠ some '+') (negative : Bool) :
    takeSign t = (negative, digits) ↔
      ∃ sign, t = sign ++ digits ∧ (sign = [] ∨ sign = ['+'] ∨ sign = ['-']) ∧ negative = decide (sign = ['-']) := by
  unfold takeSign
  constructor
  · intro h
    rcases t with _ | ⟨c, t⟩
    · simp only [List.head?_nil, reduceCtorEq, if_false, Prod.mk.injEq] at h
      exact ⟨[], by simp [← h.2], Or.inl rfl, by simp [← h.1]⟩
    · simp only [List.head?_cons, Option.some_inj, List.tail_cons] at h
      split_ifs at h with hminus hplus
      · obtain ⟨rfl, rfl⟩ := Prod.mk.inj h
        exact ⟨['-'], by rw [hminus]; rfl, Or.inr (Or.inr rfl), rfl⟩
      · obtain ⟨rfl, rfl⟩ := Prod.mk.inj h
        exact ⟨['+'], by rw [hplus]; rfl, Or.inr (Or.inl rfl), rfl⟩
      · obtain ⟨rfl, rfl⟩ := Prod.mk.inj h
        exact ⟨[], rfl, Or.inl rfl, rfl⟩
  · rintro ⟨sign, rfl, rfl | rfl | rfl, rfl⟩
    · rw [List.nil_append, if_neg hdigits.1, if_neg hdigits.2]
      rfl
    · rfl
    · rfl

theorem isAlnum_ne (h : isAlnum c = true) : c ≠ '-' ∧ c ≠ '+' := by
  constructor
  · rintro rfl
    exact absurd h (by decide)
  · rintro rfl
    exact absurd h (by decide)

/-- The loop behind the regular expression accepts the numerals. -/
theorem numeral_iff :
    Numeral b t z ↔ ∃ negative digits acc, matchBased t = some (negative, digits) ∧
      accumulate b 0 digits = some acc ∧ z = (if negative then -1 else 1) * acc := by
  unfold Numeral matchBased
  constructor
  · rintro ⟨sign, digits, ds, rfl, hsign, hne, hds, hlt, rfl⟩
    have hall : ∀ c ∈ digits, isAlnum c = true := by
      intro c hc
      have hmem : luaDigit c ∈ ds.map some := hds ▸ List.mem_map_of_mem hc
      obtain ⟨d, -, hd⟩ := List.mem_map.mp hmem
      exact (luaDigit_eq_some_iff.mp hd.symm).1
    have hhead : digits.head? ≠ some '-' ∧ digits.head? ≠ some '+' := by
      obtain ⟨c, cs, rfl⟩ := List.exists_cons_of_ne_nil hne
      simpa using isAlnum_ne (hall c List.mem_cons_self)
    have htake := (takeSign_eq_iff hhead _).mpr ⟨sign, rfl, hsign, rfl⟩
    refine ⟨decide (sign = ['-']), digits, (Nat.ofDigits b ds.reverse : ℕ), ?_, ?_, by simp⟩
    · rw [htake]
      simpa [hne] using hall
    · exact (accumulate_eq digits 0 hall).mpr ⟨ds, hds, hlt, by simp⟩
  · rintro ⟨negative, digits, acc, hmatch, hacc, rfl⟩
    dsimp only at hmatch
    split_ifs at hmatch with hcond
    obtain ⟨hneg, hdigits⟩ := Prod.mk.inj (Option.some_inj.mp hmatch)
    rw [hdigits, Bool.and_eq_true, List.all_eq_true, decide_eq_true_eq] at hcond
    obtain ⟨hne, hall⟩ := hcond
    have hhead : digits.head? ≠ some '-' ∧ digits.head? ≠ some '+' := by
      obtain ⟨c, cs, rfl⟩ := List.exists_cons_of_ne_nil hne
      simpa using isAlnum_ne (hall c List.mem_cons_self)
    obtain ⟨sign, rfl, hsign, rfl⟩ := (takeSign_eq_iff hhead negative).mp (Prod.ext hneg hdigits)
    obtain ⟨ds, hds, hlt, rfl⟩ := (accumulate_eq digits 0 hall).mp hacc
    exact ⟨sign, digits, ds, rfl, hsign, hne, hds, hlt, by simp⟩

/-! ## White space -/

variable {space : Char → Bool}

theorem trim_span (s : List Char) :
    ∃ front back, s = front ++ trim s ++ back ∧ (∀ c ∈ front, isSpace c = true) ∧ ∀ c ∈ back, isSpace c = true := by
  refine ⟨s.takeWhile isSpace, (s.dropWhile isSpace).rtakeWhile isSpace, ?_, ?_, ?_⟩
  · unfold trim
    rw [List.append_assoc, List.rdropWhile_append_rtakeWhile, List.takeWhile_append_dropWhile]
  · intro c hc
    exact List.mem_takeWhile_imp hc
  · intro c hc
    exact List.mem_rtakeWhile_imp hc

/-- What has white space around it is what `trim` leaves, if it has none inside. -/
theorem trim_padded (hfront : ∀ c ∈ front, isSpace c = true) (hback : ∀ c ∈ back, isSpace c = true)
    (ht : ∀ c ∈ t, isSpace c = false) (hne : t ≠ []) : trim (front ++ t ++ back) = t := by
  obtain ⟨c, cs, rfl⟩ := List.exists_cons_of_ne_nil hne
  have hc : ¬isSpace c = true := by
    rw [ht c List.mem_cons_self]
    exact Bool.false_ne_true
  unfold trim
  rw [List.append_assoc, List.dropWhile_append_of_pos hfront, List.cons_append, List.dropWhile_cons_of_neg hc,
    ← List.cons_append]
  unfold List.rdropWhile
  rw [List.reverse_append, List.dropWhile_append_of_pos (fun c hc => hback c (List.mem_reverse.mp hc))]
  have hlast := Format.trim_eq ht
  unfold trim List.rdropWhile at hlast
  rwa [List.dropWhile_cons_of_neg hc] at hlast

/-- A numeral is not empty and has no white space in it. -/
theorem Numeral.solid (h : Numeral b t z) : t ≠ [] ∧ ∀ c ∈ t, isSpace c = false := by
  obtain ⟨sign, digits, ds, rfl, hsign, hne, hds, -, -⟩ := h
  refine ⟨by simp [hne], ?_⟩
  intro c hc
  rcases List.mem_append.mp hc with hc | hc
  · rcases hsign with rfl | rfl | rfl
    · exact absurd hc (by simp)
    · rw [List.mem_singleton.mp hc]
      decide
    · rw [List.mem_singleton.mp hc]
      decide
  · have hmem : luaDigit c ∈ ds.map some := hds ▸ List.mem_map_of_mem hc
    obtain ⟨d, -, hd⟩ := List.mem_map.mp hmem
    have halnum := (luaDigit_eq_some_iff.mp hd.symm).1
    unfold isAlnum at halnum
    unfold isSpace
    have hblank : c ≠ ' ' := by
      rintro rfl
      exact absurd halnum (by decide)
    simp only [Bool.or_eq_true, Bool.and_eq_true, decide_eq_true_eq] at halnum
    simp only [Bool.or_eq_false_iff, Bool.and_eq_false_iff, decide_eq_false_iff_not]
    exact ⟨⟨by omega, hblank⟩, by omega⟩

/-- A numeral with the white space of JavaScript around it, and nothing else, is parsed. -/
theorem parseBase_iff (hb : 2 ≤ b ∧ b ≤ 36) (v : Int64) :
    parseBase s b = some v ↔ ∃ z, Padded isSpace b s z ∧ v = Int64.ofInt z := by
  have hparse : parseBase s b = some v ↔ trim s ≠ [] ∧ ∃ z, Numeral b (trim s) z ∧ v = Int64.ofInt z := by
    unfold parseBase
    dsimp only
    split_ifs with hempty hbad
    · exact iff_of_false (by simp) (fun h => h.1 hempty)
    · omega
    · constructor
      · intro h
        refine ⟨hempty, ?_⟩
        rcases hmatch : matchBased (trim s) with _ | ⟨negative, digits⟩
        · rw [hmatch] at h
          exact absurd h (by simp)
        · rw [hmatch] at h
          obtain ⟨acc, hacc, rfl⟩ := Option.map_eq_some_iff.mp h
          exact ⟨_, numeral_iff.mpr ⟨negative, digits, acc, hmatch, hacc, rfl⟩, rfl⟩
      · rintro ⟨-, z, hz, rfl⟩
        obtain ⟨negative, digits, acc, hmatch, hacc, rfl⟩ := numeral_iff.mp hz
        rw [hmatch]
        dsimp only
        rw [hacc]
        rfl
  rw [hparse]
  constructor
  · rintro ⟨-, z, hz, rfl⟩
    obtain ⟨front, back, hs, hfront, hback⟩ := trim_span s
    exact ⟨z, ⟨front, trim s, back, hs, hfront, hback, hz⟩, rfl⟩
  · rintro ⟨z, ⟨front, t, back, rfl, hfront, hback, hz⟩, rfl⟩
    rw [trim_padded hfront hback hz.solid.2 hz.solid.1]
    exact ⟨hz.solid.1, z, hz, rfl⟩

/-- The two kinds of white space differ in the no-break space. -/
theorem isSpace_eq_true_iff : isSpace c = true ↔ luaSpace c = true ∨ c.toNat = 0xA0 := by
  unfold isSpace luaSpace
  simp

theorem padded_luaSpace_iff :
    Padded luaSpace b s z ↔ Padded isSpace b s z ∧ ∀ c ∈ s, c.toNat ≠ 0xA0 := by
  constructor
  · rintro ⟨front, t, back, rfl, hfront, hback, hz⟩
    have hlua : ∀ c, luaSpace c = true → isSpace c = true ∧ c.toNat ≠ 0xA0 := by
      intro c hc
      refine ⟨isSpace_eq_true_iff.mpr (Or.inl hc), ?_⟩
      intro hA0
      unfold luaSpace at hc
      simp only [Bool.or_eq_true, Bool.and_eq_true, decide_eq_true_eq] at hc
      rcases hc with hc | rfl
      · omega
      · exact absurd hA0 (by decide)
    refine ⟨⟨front, t, back, rfl, fun c hc => (hlua c (hfront c hc)).1, fun c hc => (hlua c (hback c hc)).1, hz⟩, ?_⟩
    intro c hc hA0
    rw [List.append_assoc, List.mem_append, List.mem_append] at hc
    rcases hc with hc | hc | hc
    · exact (hlua c (hfront c hc)).2 hA0
    · exact absurd (hz.solid.2 c hc) (by rw [isSpace_eq_true_iff.mpr (Or.inr hA0)]; simp)
    · exact (hlua c (hback c hc)).2 hA0
  · rintro ⟨⟨front, t, back, rfl, hfront, hback, hz⟩, hA0⟩
    refine ⟨front, t, back, rfl, ?_, ?_, hz⟩
    · intro c hc
      exact (isSpace_eq_true_iff.mp (hfront c hc)).resolve_right (hA0 c (by simp [hc]))
    · intro c hc
      exact (isSpace_eq_true_iff.mp (hback c hc)).resolve_right (hA0 c (by simp [hc]))

theorem mem_readLuaString {bytes : List UInt8} : (∀ c ∈ readLuaString bytes, c.toNat ≠ 0xA0) ↔ 0xA0 ∉ bytes := by
  have hcode : ∀ b : UInt8, (Char.ofNat b.toNat).toNat = b.toNat := by
    intro b
    have := b.toNat_lt
    rw [Char.toNat_ofNat, if_pos (Or.inl (by omega))]
  unfold readLuaString
  simp only [List.mem_map, forall_exists_index, and_imp, forall_apply_eq_imp_iff₂, hcode]
  constructor
  · intro h hmem
    exact h _ hmem rfl
  · intro h b hb hA0
    obtain rfl : b = 0xA0 := UInt8.toNat_inj.mp hA0
    exact h hb

/-! ## `tonumber` -/

variable {bytes : List UInt8} {base : Int64} {hexFloat : List Char → F64} {obj : ℕ}

/-- `tonumber` of a string and a base, by the narrowed base. -/
theorem tonumber_eq (hexFloat : List Char → F64) (obj : ℕ) (bytes : List UInt8) (base : Int64) :
    tonumber hexFloat [.str obj bytes, .int base] =
      if wrap32 base < 2 ∨ 36 < wrap32 base then .error (.raised "base out of range")
      else .ok [(parseBase (readLuaString bytes) (wrap32 base)).elim .nil .int] := by
  change (if wrap32 base < 2 ∨ 36 < wrap32 base then Except.error (Fault.raised "base out of range")
    else Except.ok [hostParseNum hexFloat bytes (wrap32 base)]) = _
  split_ifs with hbase
  · rfl
  · unfold hostParseNum
    rw [if_pos (by omega)]

theorem tonumber_iff :
    IsTonumber bytes base.toInt (tonumber hexFloat [.str obj bytes, .int base]) ↔ TonumberKept bytes base := by
  have hfits := @Pattern.wrap32_eq base
  rw [tonumber_eq]
  unfold IsTonumber TonumberKept
  by_cases hbase : base.toInt < 2 ∨ 36 < base.toInt
  · rw [if_pos hbase, if_pos hbase]
    split_ifs with hw
    · exact iff_of_true ⟨_, rfl⟩ hw
    · exact iff_of_false (by simp) hw
  · obtain ⟨b, hb⟩ : ∃ b : ℕ, base.toInt = b := ⟨base.toInt.toNat, by omega⟩
    rw [if_neg hbase, if_neg hbase, hfits (by omega), if_neg hbase, hb, Int.toNat_natCast]
    have hparse := @parseBase_iff (readLuaString bytes) b (by omega)
    by_cases hhost : ∃ z, Padded isSpace b (readLuaString bytes) z
    · obtain ⟨z, hz⟩ := hhost
      rw [(hparse _).mpr ⟨z, hz, rfl⟩]
      by_cases hA0 : 0xA0 ∈ bytes
      · have hnone : ¬∃ z, Padded luaSpace b (readLuaString bytes) z := by
          rintro ⟨z', hz'⟩
          exact mem_readLuaString.mp (padded_luaSpace_iff.mp hz').2 hA0
        refine iff_of_false ?_ (by simpa [hA0] using ⟨z, hz⟩)
        rintro (⟨z', hz', -⟩ | ⟨-, hnil⟩)
        · exact hnone ⟨z', hz'⟩
        · simp at hnil
      · exact iff_of_true (Or.inl ⟨z, padded_luaSpace_iff.mpr ⟨hz, mem_readLuaString.mpr hA0⟩, rfl⟩) (Or.inl hA0)
    · have hnone : parseBase (readLuaString bytes) b = none := by
        rw [Option.eq_none_iff_forall_ne_some]
        intro v hv
        obtain ⟨z, hz, -⟩ := (hparse v).mp hv
        exact hhost ⟨z, hz⟩
      rw [hnone]
      refine iff_of_true (Or.inr ⟨?_, rfl⟩) (Or.inr hhost)
      rintro ⟨z, hz⟩
      exact hhost ⟨z, (padded_luaSpace_iff.mp hz).1⟩

end

/-- `select` and `tonumber` with a base are what Lua says exactly when narrowing does no harm and, for `tonumber`, no
no-break space takes part. -/
theorem select_tonumber (rest : List Val) (n : Int64) (hexFloat : List Char → F64) (obj : ℕ) (bytes : List UInt8)
    (base : Int64) (hrest : rest.length < 2^31) :
    (Answers (luaSelect n.toInt rest) (select (.int n :: rest)) ↔ SelectKept rest.length n) ∧
      (IsTonumber bytes base.toInt (tonumber hexFloat [.str obj bytes, .int base]) ↔ TonumberKept bytes base) :=
  ⟨select_iff hrest, tonumber_iff⟩

/-- `select(-1, 7)`, and `tonumber` of `7` in base 8. -/
theorem select_tonumber_seven :
    (Answers (luaSelect (-1) [.int 7]) (select [.int (-1), .int 7]) ↔ SelectKept 1 (-1)) ∧
      (IsTonumber [55] 8 (tonumber (fun _ => ⟨0⟩) [.str 0 [55], .int 8]) ↔ TonumberKept [55] 8) :=
  select_tonumber [.int 7] (-1) (fun _ => ⟨0⟩) 0 [55] 8 (by decide)

/-- `select(2^32 + 1, 7)` is 7, where Lua has nothing. -/
theorem select_wraps : luaSelect 4294967297 [.int 7] = some [] ∧
    select [.int 4294967297, .int 7] = .ok [.int 7] := by decide

end Lua2wasm.Baselib
