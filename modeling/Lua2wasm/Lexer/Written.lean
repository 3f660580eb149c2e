import Lua2wasm.Lexer.Spans

/-!
# Written programs are read back

`Lexeme` is a text that the lexer reads as one token: names and keywords, numerals, strings and punctuation, each by
its grammar. A program that is written as lexemes with white space behind each, and blanks, is lexed into what the
lexemes stand for (`lex_spaced`).
-/

namespace Lua2wasm.Lexer

/-! ## The lexemes -/

/-- A fraction, or nothing. -/
inductive Fraction (digit : UInt8 → Bool) : List UInt8 → Prop
  | absent : Fraction digit []
  | present (ds : List UInt8) (hds : ∀ d ∈ ds, digit d = true) : Fraction digit (46 :: ds)

/-- An exponent, or nothing. -/
inductive Exponent (lower upper : UInt8) : List UInt8 → Prop
  | absent : Exponent lower upper []
  | present (c : UInt8) (sign ds : List UInt8) (hc : c = lower ∨ c = upper)
    (hsign : sign = [] ∨ sign = [43] ∨ sign = [45]) (hds : ∀ d ∈ ds, isdigit d = true) :
    Exponent lower upper (c :: (sign ++ ds))

/-- The numerals of floats. -/
inductive FloatText : List UInt8 → Prop
  | decimal (ds f e : List UInt8) (hne : ds ≠ []) (hds : ∀ d ∈ ds, isdigit d = true) (hf : Fraction isdigit f)
    (he : Exponent 101 69 e) (hfe : f ≠ [] ∨ e ≠ []) : FloatText (ds ++ f ++ e)
  | hex (x : UInt8) (hs f e : List UInt8) (hx : x = 120 ∨ x = 88) (hhs : ∀ h ∈ hs, isxdigit h = true)
    (hf : Fraction isxdigit f) (he : Exponent 112 80 e) (hfe : f ≠ [] ∨ e ≠ []) : FloatText (48 :: x :: (hs ++ f ++ e))
  | dot (ds e : List UInt8) (hne : ds ≠ []) (hds : ∀ d ∈ ds, isdigit d = true) (he : Exponent 101 69 e) :
    FloatText (46 :: (ds ++ e))

/-- What a word stands for. -/
def wordSym (w : List UInt8) : Sym :=
  match keywords.find? fun k => k.1 = w with
  | some k => .tok k.2
  | none => .name (latin w)

/-- A text that is read as one token, and what it stands for. -/
inductive Lexeme (bits : ℕ) (strtod : List UInt8 → F64) : List UInt8 → Sym → Prop
  | word (c : UInt8) (s : List UInt8) (hc : startsName c = true) (hs : ∀ x ∈ s, inName x = true) :
    Lexeme bits strtod (c :: s) (wordSym (c :: s))
  | decimal (ds : List UInt8) (hne : ds ≠ []) (hds : ∀ d ∈ ds, isdigit d = true) (hsmall : decValue ds < 2^63) :
    Lexeme bits strtod ds (.int (BitVec.ofNat 64 (decValue ds)))
  | large (ds : List UInt8) (hne : ds ≠ []) (hds : ∀ d ∈ ds, isdigit d = true) (hlarge : 2^63 ≤ decValue ds) :
    Lexeme bits strtod ds (.float (strtod ds))
  | hex (x : UInt8) (hs : List UInt8) (hx : x = 120 ∨ x = 88) (hhs : ∀ h ∈ hs, isxdigit h = true) :
    Lexeme bits strtod (48 :: x :: hs) (.int (BitVec.ofNat 64 (hexValue hs)))
  | float (w : List UInt8) (h : FloatText w) : Lexeme bits strtod w (.float (strtod w))
  | quoted (q : Quote) (body ds : List UInt8) (h : Decodes (codeRules bits) q body ds []) :
    Lexeme bits strtod (q.byte :: body) (.str (latin ds))
  | long (n : ℕ) (nl body : List UInt8) (hnl : nl = [10] ∨ nl = [] ∧ body.headD 0 ≠ 10) (hbody : LongBody n body) :
    Lexeme bits strtod (longOpen n ++ nl ++ body ++ longClose n) (.str (latin body))
  | ellipsis : Lexeme bits strtod [46, 46, 46] (.tok .ellipsis)
  | two (c d : UInt8) (kind : TokKind) (h : ((c, d), kind) ∈ twos) : Lexeme bits strtod [c, d] (.tok kind)
  | one (c : UInt8) (kind : TokKind) (h : (c, kind) ∈ ones) : Lexeme bits strtod [c] (.tok kind)

/-- The end of the text, or white space. -/
def Stops (r : List UInt8) : Prop := r.headD 0 = 0 ∨ isspace (r.headD 0) = true

section

variable {bits n line : ℕ} {c d : UInt8} {p r s u w hs ds f e : List UInt8} {strtod : List UInt8 → F64} {y : Sym}

theorem Stops.ne (h : Stops r) (h0 : c ≠ 0) (hc : isspace c = false) : r.headD 0 ≠ c := by
  rintro rfl
  rcases h with h | h
  · exact h0 h
  · rw [hc] at h
    exact absurd h (by decide)

/-- A class of characters without zero and white space. -/
theorem Stops.out {g : UInt8 → Bool} (h : Stops r) (h0 : g 0 = false) (hg : ∀ c, isspace c = true → g c = false) :
    g (r.headD 0) = false := by
  rcases h with h | h
  · rw [h, h0]
  · exact hg _ h

theorem space_not_inName (c : UInt8) : isspace c = true → inName c = false ∧ isxdigit c = false ∧ isdigit c = false := by
  revert c
  apply forall_byte
  set_option maxRecDepth 20000 in
  decide

theorem Stops.not_digit (h : Stops r) : isdigit (r.headD 0) = false :=
  h.out (by decide) fun c hc => (space_not_inName c hc).2.2

theorem startsName_plain (c : UInt8) : startsName c = true →
    inName c = true ∧ isspace c = false ∧ isdigit c = false ∧ c ≠ 10 ∧ c ≠ 45 := by
  revert c
  apply forall_byte
  set_option maxRecDepth 20000 in
  decide

theorem digit_plain (c : UInt8) : isdigit c = true → isspace c = false ∧ c ≠ 10 ∧ c ≠ 45 ∧ isxdigit c = true := by
  revert c
  apply forall_byte
  set_option maxRecDepth 20000 in
  decide

/-- A run of characters of a class ends where the class ends. -/
theorem dropWhile_run {g : UInt8 → Bool} (hw : ∀ c ∈ w, g c = true) (hr : g (r.headD 0) = false) :
    (w ++ r).dropWhile g = r ∧ (w ++ r).takeWhile g = w := by
  induction w with
  | nil =>
    rcases r with _ | ⟨c, r⟩
    · exact ⟨rfl, rfl⟩
    · rw [List.headD_cons] at hr
      rw [List.nil_append, List.dropWhile_cons, List.takeWhile_cons, hr]
      exact ⟨rfl, rfl⟩
  | cons c w ih =>
    have ih := ih fun x hx => hw x (List.mem_cons_of_mem _ hx)
    rw [List.cons_append, List.dropWhile_cons, List.takeWhile_cons, if_pos (hw c List.mem_cons_self),
      if_pos (hw c List.mem_cons_self), ih.1, ih.2]
    exact ⟨rfl, rfl⟩

/-! ## Numerals -/

theorem skipFraction_run {digit : UInt8 → Bool} (hf : Fraction digit f) (hdot : r.headD 0 ≠ 46)
    (hr : digit (r.headD 0) = false) : skipFraction digit (f ++ r) = (decide (f ≠ []), r) := by
  unfold skipFraction
  rcases hf with _ | ⟨ds, hds⟩
  · rw [List.nil_append, if_neg hdot]
    rfl
  · rw [List.cons_append, List.headD_cons, if_pos rfl, List.tail_cons, (dropWhile_run hds hr).1]
    rfl

theorem skipExponent_run {lower upper : UInt8} (he : Exponent lower upper e) (hr : isdigit (r.headD 0) = false)
    (hplus : r.headD 0 ≠ 43) (hminus : r.headD 0 ≠ 45) (hl : r.headD 0 ≠ lower) (hu : r.headD 0 ≠ upper) :
    skipExponent lower upper (e ++ r) = (decide (e ≠ []), r) := by
  unfold skipExponent
  rcases he with _ | ⟨c, sign, ds, hc, hsign, hds⟩
  · rw [List.nil_append, if_neg (not_or.mpr ⟨hl, hu⟩)]
    rfl
  · rw [List.cons_append, List.headD_cons, if_pos hc, List.tail_cons, List.append_assoc]
    have hrun := (dropWhile_run hds hr).1
    have hne : (ds ++ r).headD 0 ≠ 43 ∧ (ds ++ r).headD 0 ≠ 45 := by
      rcases ds with _ | ⟨d, ds⟩
      · exact ⟨hplus, hminus⟩
      · have hd := hds d List.mem_cons_self
        refine ⟨?_, ?_⟩
        all_goals
          rintro h
          obtain rfl : d = _ := h
          exact absurd hd (by decide)
    dsimp only
    rcases hsign with rfl | rfl | rfl
    · rw [List.nil_append, if_neg (not_or.mpr hne), hrun]
      rfl
    · change (true, (ds ++ r).dropWhile isdigit) = _
      rw [hrun]
      rfl
    · change (true, (ds ++ r).dropWhile isdigit) = _
      rw [hrun]
      rfl

/-- What a fraction and an exponent start with, or what follows them. -/
theorem head_exponent {lower upper : UInt8} (he : Exponent lower upper e) {P : UInt8 → Prop} (hl : P lower)
    (hu : P upper) (hr : P (r.headD 0)) : P ((e ++ r).headD 0) := by
  rcases he with _ | ⟨c, sign, ds, rfl | rfl, hsign, hds⟩
  · exact hr
  · exact hl
  · exact hu

theorem head_fraction {digit : UInt8 → Bool} (hf : Fraction digit f) {P : UInt8 → Prop} (hdot : P 46)
    (hr : P (r.headD 0)) : P ((f ++ r).headD 0) := by
  rcases hf with _ | ⟨ds, hds⟩
  · exact hr
  · exact hdot

/-- The scan of a decimal numeral. -/
theorem scanNumber_decimal (hne : ds ≠ []) (hds : ∀ d ∈ ds, isdigit d = true) (hf : Fraction isdigit f)
    (he : Exponent 101 69 e) (hr : Stops r) :
    scanNumber (ds ++ (f ++ (e ++ r))) = ⟨false, decide (f ≠ []) || decide (e ≠ []), r⟩ := by
  have hout := hr.not_digit
  have hstop : ∀ c : UInt8, c ≠ 0 → isspace c = false → r.headD 0 ≠ c := fun c h0 hc => hr.ne h0 hc
  have he' : isdigit ((e ++ r).headD 0) = false := head_exponent he (P := fun c => isdigit c = false) rfl rfl hout
  have hf' : isdigit ((f ++ (e ++ r)).headD 0) = false := head_fraction hf (P := fun c => isdigit c = false) rfl he'
  have hnothex : ¬((ds ++ (f ++ (e ++ r))).headD 0 = 48 ∧
      ((ds ++ (f ++ (e ++ r))).getD 1 0 = 120 ∨ (ds ++ (f ++ (e ++ r))).getD 1 0 = 88)) := by
    rintro ⟨-, hx⟩
    rcases ds with _ | ⟨d, _ | ⟨d', ds⟩⟩
    · exact hne rfl
    · rw [List.cons_append, List.nil_append, List.getD_cons_succ, List.getD_eq_getElem?_getD, ← List.head?_eq_getElem?,
        ← List.headD_eq_head?_getD] at hx
      have hfe : ∀ x : UInt8, x ≠ 46 → x ≠ 101 → x ≠ 69 → x ≠ 0 → isspace x = false →
          (f ++ (e ++ r)).headD 0 ≠ x := fun x h1 h2 h3 h4 h5 =>
        head_fraction hf (P := fun c => c ≠ x) h1.symm
          (head_exponent he (P := fun c => c ≠ x) h2.symm h3.symm (hstop x h4 h5))
      rcases hx with hx | hx
      · exact hfe 120 (by decide) (by decide) (by decide) (by decide) (by decide) hx
      · exact hfe 88 (by decide) (by decide) (by decide) (by decide) (by decide) hx
    · have hd' := hds d' (by simp)
      rw [List.cons_append, List.cons_append, List.getD_cons_succ, List.getD_cons_zero] at hx
      rcases hx with rfl | rfl <;> exact absurd hd' (by decide)
  unfold scanNumber
  rw [if_neg hnothex, (dropWhile_run hds hf').1]
  dsimp only
  rw [skipFraction_run hf (head_exponent he (P := fun c => c ≠ 46) (by decide) (by decide)
      (hstop 46 (by decide) (by decide))) he',
    skipExponent_run he hout (hstop 43 (by decide) (by decide)) (hstop 45 (by decide) (by decide))
      (hstop 101 (by decide) (by decide)) (hstop 69 (by decide) (by decide))]

/-- The scan of a hexadecimal numeral. -/
theorem scanNumber_hex {x : UInt8} (hx : x = 120 ∨ x = 88) (hhs : ∀ h ∈ hs, isxdigit h = true)
    (hf : Fraction isxdigit f) (he : Exponent 112 80 e) (hr : Stops r) :
    scanNumber (48 :: x :: (hs ++ (f ++ (e ++ r)))) = ⟨true, decide (f ≠ []) || decide (e ≠ []), r⟩ := by
  have hout := hr.not_digit
  have houtx : isxdigit (r.headD 0) = false := hr.out (by decide) fun c hc => (space_not_inName c hc).2.1
  have hstop : ∀ c : UInt8, c ≠ 0 → isspace c = false → r.headD 0 ≠ c := fun c h0 hc => hr.ne h0 hc
  have he' : isxdigit ((e ++ r).headD 0) = false := head_exponent he (P := fun c => isxdigit c = false) rfl rfl houtx
  have hf' : isxdigit ((f ++ (e ++ r)).headD 0) = false := head_fraction hf (P := fun c => isxdigit c = false) rfl he'
  unfold scanNumber
  rw [if_pos ⟨rfl, hx⟩, show List.drop 2 (48 :: x :: (hs ++ (f ++ (e ++ r)))) = hs ++ (f ++ (e ++ r)) from rfl,
    (dropWhile_run hhs hf').1]
  dsimp only
  rw [skipFraction_run hf (head_exponent he (P := fun c => c ≠ 46) (by decide) (by decide)
      (hstop 46 (by decide) (by decide))) he',
    skipExponent_run he hout (hstop 43 (by decide) (by decide)) (hstop 45 (by decide) (by decide))
      (hstop 112 (by decide) (by decide)) (hstop 80 (by decide) (by decide))]

/-! ## The value of hexadecimal digits -/

/-- The digits are shifted in one after the other, and the lowest 64 bits stay. -/
theorem hexInt_eq (hhs : ∀ h ∈ hs, isxdigit h = true) : hexInt hs = BitVec.ofNat 64 (hexValue hs) := by
  have hfold : ∀ (acc : I64) (v : ℕ), acc.toNat = v % 2^64 →
      (hs.foldl (fun (acc : I64) c => (acc <<< 4) ||| BitVec.ofNat 64 (hexVal c)) acc).toNat =
        hs.foldl (fun v c => v * 16 + hexDigit c) v % 2^64 := by
    induction hs with
    | nil => exact fun acc v h => h
    | cons c hs ih =>
      intro acc v h
      obtain ⟨hval, hlt⟩ := hexVal_eq c (hhs c List.mem_cons_self)
      refine ih (fun x hx => hhs x (List.mem_cons_of_mem _ hx)) _ _ ?_
      have hdigit : hexDigit c % 2^64 = hexDigit c := Nat.mod_eq_of_lt (by omega)
      calc
        ((acc <<< 4) ||| BitVec.ofNat 64 (hexVal c)).toNat
          = (acc.toNat <<< 4) % 2^64 ||| hexDigit c := by
            rw [BitVec.toNat_or, BitVec.toNat_shiftLeft, BitVec.toNat_ofNat, hval, hdigit]
        _ = acc.toNat * 16 % 2^64 + hexDigit c := shift_or (by decide) hlt
        _ = (v * 16 + hexDigit c) % 2^64 := by
          rw [h]
          omega
  apply BitVec.eq_of_toNat_eq
  rw [BitVec.toNat_ofNat]
  exact hfold 0 0 rfl

/-! ## Tokens of numerals -/

/-- The text of a token that ends where the rest begins. -/
theorem take_behind (w r : List UInt8) : (w ++ r).take ((w ++ r).length - r.length) = w := by
  rw [length_behind rfl, List.take_left]

theorem numberToken_int (hscan : (scanNumber (ds ++ r)) = ⟨false, false, r⟩) (hsmall : decValue ds < 2^63) :
    (numberToken strtod ⟨ds ++ r, line⟩).sym = .int (BitVec.ofNat 64 (decValue ds)) := by
  unfold numberToken
  rw [hscan]
  dsimp only
  rw [take_behind, if_neg (by decide), if_neg (by decide)]
  unfold strtoll
  rw [if_pos hsmall, if_neg (fun h => absurd h (by simp))]
  rfl

theorem numberToken_large (hscan : (scanNumber (ds ++ r)) = ⟨false, false, r⟩) (hlarge : 2^63 ≤ decValue ds) :
    (numberToken strtod ⟨ds ++ r, line⟩).sym = .float (strtod ds) := by
  unfold numberToken
  rw [hscan]
  dsimp only
  rw [take_behind, if_neg (by decide), if_neg (by decide)]
  unfold strtoll
  rw [if_neg (not_lt.mpr hlarge), if_pos rfl]
  rfl

theorem numberToken_hex {x : UInt8} (hhs : ∀ h ∈ hs, isxdigit h = true)
    (hscan : (scanNumber (48 :: x :: hs ++ r)) = ⟨true, false, r⟩) :
    (numberToken strtod ⟨48 :: x :: hs ++ r, line⟩).sym = .int (BitVec.ofNat 64 (hexValue hs)) := by
  unfold numberToken
  rw [hscan]
  dsimp only
  rw [take_behind, if_pos (by decide), ← hexInt_eq hhs]
  rfl

theorem numberToken_float {isHex : Bool} (hscan : (scanNumber (w ++ r)) = ⟨isHex, true, r⟩) :
    (numberToken strtod ⟨w ++ r, line⟩).sym = .float (strtod w) := by
  unfold numberToken
  rw [hscan]
  dsimp only
  rw [take_behind, if_neg (by simp), if_pos rfl]
  rfl

/-- A pass over a numeral that starts with a digit. -/
theorem lexStep_number (hc : isdigit ((w ++ r).headD 0) = true) {scanned : Scanned}
    (hscan : scanNumber (w ++ r) = scanned) (hrest : scanned.rest = r)
    (hsym : (numberToken strtod ⟨w ++ r, line⟩).sym = y) :
    ∃ t, lexStep bits strtod ⟨w ++ r, line⟩ = .ok (some t, ⟨r, line⟩) ∧ t.sym = y := by
  obtain ⟨hspace, hnl, hdash, -⟩ := digit_plain _ hc
  refine ⟨numberToken strtod ⟨w ++ r, line⟩, ?_, hsym⟩
  unfold lexStep
  rw [if_neg hnl, if_neg (by rw [hspace]; decide), if_neg (fun h => hdash h.1), if_pos hc, hscan, hrest]

/-- A pass over a numeral that starts with a dot. -/
theorem lexStep_dot (hne : ds ≠ []) (hds : ∀ d ∈ ds, isdigit d = true) (he : Exponent 101 69 e) (hr : Stops r) :
    ∃ t, lexStep bits strtod ⟨46 :: (ds ++ e) ++ r, line⟩ = .ok (some t, ⟨r, line⟩) ∧
      t.sym = .float (strtod (46 :: (ds ++ e))) := by
  have hout := hr.not_digit
  have hstop : ∀ c : UInt8, c ≠ 0 → isspace c = false → r.headD 0 ≠ c := fun c h0 hc => hr.ne h0 hc
  have hscan : scanDot (46 :: (ds ++ e) ++ r) = r := by
    unfold scanDot
    rw [List.cons_append, List.tail_cons, List.append_assoc,
      (dropWhile_run hds (head_exponent he (P := fun c => isdigit c = false) rfl rfl hout)).1,
      skipExponent_run he hout (hstop 43 (by decide) (by decide)) (hstop 45 (by decide) (by decide))
        (hstop 101 (by decide) (by decide)) (hstop 69 (by decide) (by decide))]
  have hdigit : isdigit ((46 :: (ds ++ e) ++ r).getD 1 0) = true := by
    rcases ds with _ | ⟨d, ds⟩
    · exact absurd rfl hne
    · exact hds d List.mem_cons_self
  refine ⟨dotToken strtod ⟨46 :: (ds ++ e) ++ r, line⟩, ?_, ?_⟩
  · change (if (46 : UInt8) = 46 ∧ isdigit ((46 :: (ds ++ e) ++ r).getD 1 0) = true
      then Except.ok (some (dotToken strtod ⟨46 :: (ds ++ e) ++ r, line⟩),
        (⟨scanDot (46 :: (ds ++ e) ++ r), line⟩ : Lex)) else _) = _
    rw [if_pos ⟨rfl, hdigit⟩, hscan]
  · unfold dotToken
    dsimp only
    rw [hscan, take_behind]
    rfl

/-! ## Words -/

theorem found_kind (o : Option (List UInt8 × TokKind)) :
    (match o with | some k => k.2 | none => TokKind.ident) = (o.map Prod.snd).getD .ident := by
  cases o <;> rfl

theorem keywordOrIdent_eq (w : List UInt8) :
    keywordOrIdent w = ((keywords.find? fun k => k.1 = w).map Prod.snd).getD .ident := by
  have hlen : ∀ k ∈ keywords, 2 ≤ k.1.length ∧ k.1.length ≤ 8 := by simp [keywords]
  unfold keywordOrIdent
  by_cases hw : w.length < 2 ∨ 8 < w.length
  · -- no keyword has that length
    rw [if_pos hw]
    have hnone : keywords.find? (fun k => k.1 = w) = none := by
      rw [List.find?_eq_none]
      intro k hk
      have := hlen k hk
      rw [decide_eq_true_iff]
      rintro rfl
      omega
    rw [hnone]
    rfl
  · rw [if_neg hw]
    have hsame : (fun k : List UInt8 × TokKind => decide (k.1.length = w.length ∧ k.1.headD 0 = w.headD 0 ∧ k.1 = w)) =
        fun k => decide (k.1 = w) := by
      funext k
      refine decide_eq_decide.mpr ⟨fun h => h.2.2, ?_⟩
      rintro h
      exact ⟨by rw [h], by rw [h], h⟩
    rw [hsame]
    exact found_kind _

/-- A token of a kind without a value. -/
theorem sym_tok {t : Token} (h : t.kind ≠ .ident ∧ t.kind ≠ .int ∧ t.kind ≠ .float ∧ t.kind ≠ .string) :
    t.sym = .tok t.kind := by
  obtain ⟨kind, start, len, line, iVal, fVal, str⟩ := t
  obtain ⟨h1, h2, h3, h4⟩ := h
  cases kind
  case ident => exact absurd rfl h1
  case int => exact absurd rfl h2
  case float => exact absurd rfl h3
  case string => exact absurd rfl h4
  all_goals rfl

/-- Keywords and punctuation have no value. -/
theorem keywords_plain : ∀ k ∈ keywords, k.2 ≠ .ident ∧ k.2 ≠ .int ∧ k.2 ≠ .float ∧ k.2 ≠ .string := by
  decide

theorem lexStep_word (hc : startsName c = true) (hs : ∀ x ∈ s, inName x = true) (hr : Stops r) :
    ∃ t, lexStep bits strtod ⟨c :: s ++ r, line⟩ = .ok (some t, ⟨r, line⟩) ∧ t.sym = wordSym (c :: s) := by
  obtain ⟨hin, hspace, hdigit, hnl, hdash⟩ := startsName_plain c hc
  have hout : inName (r.headD 0) = false := hr.out (by decide) fun c hc => (space_not_inName c hc).1
  have hall : ∀ x ∈ c :: s, inName x = true := by
    intro x hx
    rcases List.mem_cons.mp hx with rfl | hx
    · exact hin
    · exact hs x hx
  obtain ⟨hdrop, htake⟩ := dropWhile_run hall hout
  refine ⟨⟨keywordOrIdent (c :: s), c :: s ++ r, (c :: s).length, line, 0, ⟨0⟩, []⟩, ?_, ?_⟩
  · unfold lexStep
    rw [show (c :: s ++ r).headD 0 = c from rfl, if_neg hnl, if_neg (by rw [hspace]; decide), if_neg (fun h => hdash h.1),
      if_neg (by rw [hdigit]; decide), if_pos hc, hdrop, htake]
  · unfold wordSym
    rcases hfind : keywords.find? fun k => k.1 = c :: s with _ | k
    · have hkind : keywordOrIdent (c :: s) = .ident := by
        rw [keywordOrIdent_eq, hfind]
        rfl
      rw [hkind]
      change Sym.name (latin ((c :: s ++ r).take (c :: s).length)) = _
      rw [List.take_left, hfind]
    · have hkind : keywordOrIdent (c :: s) = k.2 := by
        rw [keywordOrIdent_eq, hfind]
        rfl
      rw [hfind, hkind]
      exact sym_tok (keywords_plain k (List.mem_of_find?_eq_some hfind))

/-! ## Strings -/

theorem piece_append {ru : Rules} {q : Quote} {d' : List UInt8} (hs : u ≠ []) (h : Piece ru q p d' u) :
    Piece ru q (p ++ r) d' (u ++ r) := by
  have hhead : (u ++ r).headD 0 = u.headD 0 := by
    rcases u with _ | ⟨c, u⟩
    · exact absurd rfl hs
    · rfl
  rcases h with ⟨c, _, hc, hcr⟩ | ⟨e, c, _, h⟩ | ⟨a, b, _, ha, hb⟩ | ⟨ds, _, hne, hlen, hds, hmax, hval⟩ |
    ⟨ws, _, hws, hmax⟩ | ⟨br, _, hbr, hmax⟩ | ⟨hs, _, _, v, hne, hhs, hv, hbs⟩
  · exact Piece.plain c _ hc hcr
  · exact Piece.single e c _ h
  · exact Piece.hex a b _ ha hb
  · rw [List.cons_append, List.append_assoc]
    exact Piece.decimal ds _ hne hlen hds (by rwa [hhead]) hval
  · rw [List.cons_append, List.cons_append, List.append_assoc]
    exact Piece.skip ws _ hws (by rwa [hhead])
  · rw [List.cons_append, List.append_assoc]
    refine Piece.lineBreak br _ hbr fun br' hbr' hpre => hmax br' hbr' ?_
    -- a line break of two characters ends before the text that is added
    rw [← List.append_assoc] at hpre
    refine List.prefix_of_prefix_length_le hpre (List.prefix_append _ _) ?_
    have hlong := (by decide : ∀ br ∈ lineBreaks, br.length ≤ 2) br' hbr'
    have hpos := (by decide : ∀ br ∈ lineBreaks, 1 ≤ br.length) br hbr
    have := List.length_pos_of_ne_nil hs
    rw [List.length_append]
    omega
  · rw [List.cons_append, List.cons_append, List.cons_append, List.append_assoc, List.cons_append]
    exact Piece.utf8 hs _ _ v hne hhs hv hbs

/-- A literal stays one when text follows it. -/
theorem decodes_append {ru : Rules} {q : Quote} (h : Decodes ru q p ds u) : Decodes ru q (p ++ r) ds (u ++ r) := by
  induction h with
  | close rest => exact Decodes.close (rest ++ r)
  | step s s' d ds rest hp hd ih =>
    refine Decodes.step _ _ d ds _ (piece_append ?_ hp) ih
    rintro rfl
    rcases decodes_cases hd with ⟨h, -⟩ | ⟨s'', d', ds', hp', -, -⟩
    · exact absurd h (by simp)
    · exact absurd rfl (piece_head hp').1

theorem lexStep_quoted {q : Quote} {body : List UInt8} (hbits : 4 ≤ bits) (h : Decodes (codeRules bits) q body ds []) :
    ∃ t line', lexStep bits strtod ⟨q.byte :: body ++ r, line⟩ = .ok (some t, ⟨r, line'⟩) ∧ t.sym = .str (latin ds) := by
  have hdec : Decodes (codeRules bits) q (body ++ r) ds ([] ++ r) := decodes_append h
  obtain ⟨line', hread⟩ := ((readString_spec (q := q) (s := body ++ r) line hbits).1 ds r).mpr hdec
  refine ⟨⟨.string, q.byte :: (body ++ r), (q.byte :: (body ++ r)).length - r.length, line, 0, ⟨0⟩, ds⟩, line', ?_, rfl⟩
  have hquote : (q.byte = 34 ∨ q.byte = 39) ∧ q.byte ≠ 10 ∧ q.byte ≠ 45 ∧ isspace q.byte = false ∧
      isdigit q.byte = false ∧ startsName q.byte = false := by
    rcases q with _ | _ <;> decide
  obtain ⟨hq, hnl, hdash, hspace, hdigit, hname⟩ := hquote
  unfold lexStep
  rw [List.cons_append, List.headD_cons, if_neg hnl, if_neg (by rw [hspace]; decide), if_neg (fun h => hdash h.1),
    if_neg (by rw [hdigit]; decide), if_neg (by rw [hname]; decide), if_pos hq, hread]
  rfl

/-- The closing bracket of a body is found behind a newline, too. -/
theorem readLong_open {nl body : List UInt8} (line : ℕ) (hnl : nl = [10] ∨ nl = [] ∧ body.headD 0 ≠ 10)
    (hbody : LongBody n body) (r : List UInt8) :
    ∃ L line', tryOpenLongBracket ⟨longOpen n ++ nl ++ body ++ longClose n ++ r, line⟩ = some (n, L) ∧
      readLongBody n L.p L.line = some (body, ⟨r, line'⟩) := by
  have hassoc : longOpen n ++ nl ++ body ++ longClose n ++ r = longOpen n ++ (nl ++ (body ++ longClose n ++ r)) := by
    simp only [List.append_assoc]
  rw [hassoc, tryOpenLongBracket_open]
  rcases hnl with rfl | ⟨rfl, hhead⟩
  · refine ⟨⟨body ++ longClose n ++ r, line + 1⟩, _, rfl, readLongBody_iff.mpr ⟨hbody, rfl, rfl⟩⟩
  · have hne : (body ++ longClose n ++ r).headD 0 ≠ 10 := by
      rcases body with _ | ⟨c, body⟩
      · exact (by decide : (93 : UInt8) ≠ 10)
      · exact hhead
    rw [List.nil_append, if_neg hne]
    exact ⟨⟨body ++ longClose n ++ r, line⟩, _, rfl, readLongBody_iff.mpr ⟨hbody, rfl, rfl⟩⟩

/-- What starts neither a blank, a numeral, a name nor a quoted string. -/
theorem lexStep_punctuation (hnl : p.headD 0 ≠ 10) (hspace : isspace (p.headD 0) = false)
    (hdash : ¬(p.headD 0 = 45 ∧ p.getD 1 0 = 45)) (hdigit : isdigit (p.headD 0) = false)
    (hname : startsName (p.headD 0) = false) (hquote : p.headD 0 ≠ 34 ∧ p.headD 0 ≠ 39)
    (hdot : ¬(p.headD 0 = 46 ∧ isdigit (p.getD 1 0) = true)) :
    lexStep bits strtod ⟨p, line⟩ = lexPunctuation ⟨p, line⟩ := by
  unfold lexStep
  rw [if_neg hnl, if_neg (by rw [hspace]; decide), if_neg hdash, if_neg (by rw [hdigit]; decide),
    if_neg (by rw [hname]; decide), if_neg (not_or.mpr hquote), if_neg hdot]

theorem lexStep_long {nl body : List UInt8} (hnl : nl = [10] ∨ nl = [] ∧ body.headD 0 ≠ 10) (hbody : LongBody n body) :
    ∃ t line', lexStep bits strtod ⟨longOpen n ++ nl ++ body ++ longClose n ++ r, line⟩ = .ok (some t, ⟨r, line'⟩) ∧
      t.sym = .str (latin body) := by
  obtain ⟨L, line', hopen, hread⟩ := readLong_open line hnl hbody r
  have hhead : (longOpen n ++ nl ++ body ++ longClose n ++ r).headD 0 = 91 := rfl
  generalize longOpen n ++ nl ++ body ++ longClose n ++ r = p at hopen hhead ⊢
  refine ⟨⟨.string, p, p.length - r.length, line, 0, ⟨0⟩, body⟩, line', ?_, rfl⟩
  rw [lexStep_punctuation (by rw [hhead]; decide) (by rw [hhead]; decide) (by rw [hhead]; simp)
    (by rw [hhead]; decide) (by rw [hhead]; decide) (by rw [hhead]; decide) (by rw [hhead]; simp)]
  unfold lexPunctuation
  rw [hopen]
  dsimp only
  rw [hread]

/-! ## Punctuation -/

/-- What the characters of punctuation are not. -/
def Punct (c : UInt8) : Prop :=
  c ≠ 0 ∧ c ≠ 10 ∧ isspace c = false ∧ isdigit c = false ∧ startsName c = false ∧ c ≠ 34 ∧ c ≠ 39

theorem ones_punct : ∀ x ∈ ones, Punct x.1 := by
  unfold Punct
  decide

theorem twos_punct : ∀ x ∈ twos, Punct x.1.1 ∧ isdigit x.1.2 = false ∧ x.1.1 ≠ 91 ∧ x.1.1 ≠ 45 := by
  unfold Punct
  decide

theorem ones_plain : ∀ x ∈ ones, x.2 ≠ .ident ∧ x.2 ≠ .int ∧ x.2 ≠ .float ∧ x.2 ≠ .string := by
  decide

theorem twos_plain : ∀ x ∈ twos, x.2 ≠ .ident ∧ x.2 ≠ .int ∧ x.2 ≠ .float ∧ x.2 ≠ .string := by
  decide

/-- A pass over punctuation, which starts no long bracket. -/
theorem lexStep_punct {kind : TokKind} (hc : Punct (p.headD 0)) (hdash : ¬(p.headD 0 = 45 ∧ p.getD 1 0 = 45))
    (hdigit : isdigit (p.getD 1 0) = false) (hopen : ∀ n, ¬longOpen n <+: p) (hp : punctuation p = some (kind, n))
    (hrest : p.drop n = r) :
    lexStep bits strtod ⟨p, line⟩ = .ok (some ⟨kind, p, n, line, 0, ⟨0⟩, []⟩, ⟨r, line⟩) := by
  obtain ⟨-, hnl, hspace, hnum, hname, hquote⟩ := hc
  rw [lexStep_punctuation hnl hspace hdash hnum hname hquote (fun h => by rw [hdigit] at h; exact absurd h.2 (by decide))]
  unfold lexPunctuation
  rw [tryOpenLongBracket_none.mpr hopen]
  rw [hp, ← hrest]

/-- A long bracket opens with its own character and one of two behind it. -/
theorem longOpen_second (h : longOpen n <+: c :: p) : c = 91 ∧ (p.headD 0 = 61 ∨ p.headD 0 = 91) := by
  unfold longOpen at h
  obtain ⟨hc, h⟩ := List.cons_prefix_cons.mp h
  refine ⟨hc.symm, ?_⟩
  rcases n with _ | n
  · obtain ⟨t, rfl⟩ := h
    exact Or.inr rfl
  · rw [List.replicate_succ, List.cons_append] at h
    obtain ⟨t, rfl⟩ := h
    exact Or.inl rfl

theorem lexStep_one {kind : TokKind} (h : (c, kind) ∈ ones) (hr : Stops r) :
    ∃ t, lexStep bits strtod ⟨c :: r, line⟩ = .ok (some t, ⟨r, line⟩) ∧ t.sym = .tok kind := by
  have hfind : ∀ x ∈ ones, ones.find? (fun y => y.1 = x.1) = some x := by decide
  have hsecond : ∀ x ∈ twos, x.1.2 ≠ r.headD 0 := by
    intro x hx heq
    have hplain := (by decide : ∀ x ∈ twos, x.1.2 ≠ 0 ∧ isspace x.1.2 = false) x hx
    exact hr.ne hplain.1 hplain.2 heq.symm
  have hget : (c :: r).getD 1 0 = r.headD 0 := by
    rw [List.getD_cons_succ, List.getD_eq_getElem?_getD, ← List.head?_eq_getElem?, ← List.headD_eq_head?_getD]
  have hout := hr.not_digit
  have hpunct : punctuation (c :: r) = some (kind, 1) := by
    unfold punctuation
    have htwo : twos.find? (fun x => x.1 = ((c :: r).headD 0, (c :: r).getD 1 0)) = none := by
      rw [List.find?_eq_none]
      intro x hx
      rw [decide_eq_true_iff, hget]
      intro heq
      exact hsecond x hx (congrArg Prod.snd heq)
    rw [if_neg (fun h => hr.ne (c := 46) (by decide) (by decide) (hget ▸ h.2.1)), htwo]
    rw [List.headD_cons, hfind _ h]
    rfl
  refine ⟨_, lexStep_punct (ones_punct _ h) (fun h => ?_) (by rw [hget]; exact hout) (fun n hn => ?_) hpunct rfl,
    sym_tok (ones_plain _ h)⟩
  · exact hr.ne (c := 45) (by decide) (by decide) (hget ▸ h.2)
  · obtain ⟨-, h61 | h91⟩ := longOpen_second hn
    · exact hr.ne (by decide) (by decide) h61
    · exact hr.ne (by decide) (by decide) h91

theorem lexStep_two {kind : TokKind} (h : ((c, d), kind) ∈ twos) (hr : Stops r) :
    ∃ t, lexStep bits strtod ⟨c :: d :: r, line⟩ = .ok (some t, ⟨r, line⟩) ∧ t.sym = .tok kind := by
  have hfind : ∀ x ∈ twos, twos.find? (fun y => y.1 = x.1) = some x := by decide
  obtain ⟨hc, hdigit, hne, hdash⟩ := twos_punct _ h
  have hget : (c :: d :: r).getD 2 0 = r.headD 0 := by
    rw [List.getD_cons_succ, List.getD_cons_succ, List.getD_eq_getElem?_getD, ← List.head?_eq_getElem?,
      ← List.headD_eq_head?_getD]
  have hpunct : punctuation (c :: d :: r) = some (kind, 2) := by
    unfold punctuation
    rw [if_neg (fun h => hr.ne (c := 46) (by decide) (by decide) (hget ▸ h.2.2)), List.headD_cons, List.getD_cons_succ,
      List.getD_cons_zero, hfind _ h]
  refine ⟨_, lexStep_punct hc (fun h => hdash h.1) hdigit (fun n hn => ?_) hpunct rfl, sym_tok (twos_plain _ h)⟩
  exact hne (longOpen_second hn).1

theorem lexStep_ellipsis : ∃ t, lexStep bits strtod ⟨[46, 46, 46] ++ r, line⟩ = .ok (some t, ⟨r, line⟩) ∧
    t.sym = .tok .ellipsis := by
  have hpunct : punctuation ([46, 46, 46] ++ r) = some (.ellipsis, 3) := if_pos ⟨rfl, rfl, rfl⟩
  have hdot : Punct 46 := ones_punct (46, .dot) (by decide)
  have hhead : ([46, 46, 46] ++ r).headD 0 = 46 := rfl
  have hsecond : ([46, 46, 46] ++ r).getD 1 0 = 46 := rfl
  refine ⟨_, lexStep_punct hdot (fun h => ?_) (by rw [hsecond]; decide) (fun n hn => ?_) hpunct rfl, rfl⟩
  · rw [hhead] at h
    exact absurd h.1 (by decide)
  · exact absurd (longOpen_second hn).1 (by decide)

/-! ## Lexemes and blanks -/

/-- A lexeme in front of white space is read as what it stands for. -/
theorem lexStep_lexeme (hbits : 4 ≤ bits) (h : Lexeme bits strtod w y) (hr : Stops r) (line : ℕ) :
    ∃ t line', lexStep bits strtod ⟨w ++ r, line⟩ = .ok (some t, ⟨r, line'⟩) ∧ t.sym = y := by
  have hstays : ∀ w y, (∃ t, lexStep bits strtod ⟨w ++ r, line⟩ = .ok (some t, ⟨r, line⟩) ∧ t.sym = y) →
      ∃ t line', lexStep bits strtod ⟨w ++ r, line⟩ = .ok (some t, ⟨r, line'⟩) ∧ t.sym = y := by
    rintro w y ⟨t, hstep, hsym⟩
    exact ⟨t, line, hstep, hsym⟩
  rcases h with ⟨c, s, hc, hs⟩ | ⟨_, hne, hds, hsmall⟩ | ⟨_, hne, hds, hlarge⟩ | ⟨x, hs, hx, hhs⟩ | ⟨_, hfloat⟩ |
    ⟨q, body, ds, hdec⟩ | ⟨n, nl, body, hnl, hbody⟩ | _ | ⟨c, d, kind, hmem⟩ | ⟨c, kind, hmem⟩
  · exact hstays _ _ (lexStep_word hc hs hr)
  · have hscan := scanNumber_decimal hne hds Fraction.absent Exponent.absent hr
    refine hstays _ _ (lexStep_number ?_ hscan rfl (numberToken_int hscan hsmall))
    rcases w with _ | ⟨d, ds⟩
    · exact absurd rfl hne
    · exact hds d List.mem_cons_self
  · have hscan := scanNumber_decimal hne hds Fraction.absent Exponent.absent hr
    refine hstays _ _ (lexStep_number ?_ hscan rfl (numberToken_large hscan hlarge))
    rcases w with _ | ⟨d, ds⟩
    · exact absurd rfl hne
    · exact hds d List.mem_cons_self
  · have hscan := scanNumber_hex hx hhs Fraction.absent Exponent.absent hr
    exact hstays _ _ (lexStep_number rfl hscan rfl (numberToken_hex hhs hscan))
  · rcases hfloat with ⟨ds, f, e, hne, hds, hf, he, hfe⟩ | ⟨x, hs, f, e, hx, hhs, hf, he, hfe⟩ | ⟨ds, e, hne, hds, he⟩
    · have hscan := scanNumber_decimal hne hds hf he hr
      rw [show (decide (f ≠ []) || decide (e ≠ [])) = true by simpa using hfe, ← List.append_assoc,
        ← List.append_assoc] at hscan
      refine hstays _ _ (lexStep_number ?_ hscan rfl (numberToken_float hscan))
      rcases ds with _ | ⟨d, ds⟩
      · exact absurd rfl hne
      · exact hds d List.mem_cons_self
    · have hscan := scanNumber_hex hx hhs hf he hr
      rw [show (decide (f ≠ []) || decide (e ≠ [])) = true by simpa using hfe, ← List.append_assoc,
        ← List.append_assoc] at hscan
      exact hstays _ _ (lexStep_number rfl hscan rfl (numberToken_float (w := 48 :: x :: (hs ++ f ++ e)) hscan))
    · exact hstays _ _ (lexStep_dot hne hds he hr)
  · exact lexStep_quoted hbits hdec
  · exact lexStep_long hnl hbody
  · exact hstays _ _ lexStep_ellipsis
  · exact hstays _ _ (lexStep_two hmem hr)
  · exact hstays _ _ (lexStep_one hmem hr)

/-- What is no part of a text is in front of the text that follows. -/
theorem prefix_of_stop (hu : ∀ c ∈ u, c ≠ r.headD 0) (h : u <+: s ++ r) : u <+: s := by
  induction s generalizing u with
  | nil =>
    rcases u with _ | ⟨c, u⟩
    · exact List.nil_prefix
    · obtain ⟨t, ht⟩ := h
      refine absurd ?_ (hu c List.mem_cons_self)
      rw [← List.nil_append r, ← ht]
      rfl
  | cons d s ih =>
    rcases u with _ | ⟨c, u⟩
    · exact List.nil_prefix
    · rw [List.cons_append] at h
      obtain ⟨hc, htail⟩ := List.cons_prefix_cons.mp h
      exact List.cons_prefix_cons.mpr ⟨hc, ih (fun x hx => hu x (List.mem_cons_of_mem _ hx)) htail⟩

/-- A blank is skipped. -/
theorem lexStep_blank (h : Blank w r) (line : ℕ) :
    ∃ line', lexStep bits strtod ⟨w ++ r, line⟩ = .ok (none, ⟨r, line'⟩) := by
  rcases h with ⟨c, _, hc⟩ | ⟨s, _, hs, hopen, hrest⟩ | ⟨n, body, _, hbody⟩
  · unfold lexStep
    by_cases hnl : c = 10
    · exact ⟨line + 1, if_pos hnl⟩
    · exact ⟨line, (if_neg hnl).trans (if_pos hc)⟩
  · refine ⟨line, ?_⟩
    have hnone : tryOpenLongBracket ⟨s ++ r, line⟩ = none := by
      refine tryOpenLongBracket_none.mpr fun n hn => hopen n (prefix_of_stop (fun c hc => ?_) hn)
      unfold longOpen at hc
      rw [List.mem_cons, List.mem_append, List.mem_replicate, List.mem_singleton] at hc
      rcases hrest with hrest | hrest <;> rw [hrest] <;> rcases hc with rfl | ⟨-, rfl⟩ | rfl <;> decide
    have hdrop : (s ++ r).dropWhile (fun c => c ≠ 0 && c ≠ 10) = r :=
      (dropWhile_run (fun c hc => by simpa using hs c hc) (by rcases hrest with h | h <;> rw [h] <;> rfl)).1
    change (skipComment ⟨45 :: 45 :: (s ++ r), line⟩).map _ = _
    unfold skipComment
    dsimp only
    rw [show (45 :: 45 :: (s ++ r)).drop 2 = s ++ r from rfl, hnone]
    rw [hdrop]
    rfl
  · obtain ⟨nl, body', hnl, rfl, hbody'⟩ : ∃ nl body', (nl = [10] ∨ nl = [] ∧ body'.headD 0 ≠ 10) ∧
        body = nl ++ body' ∧ LongBody n body' := by
      rcases body with _ | ⟨c, body⟩
      · exact ⟨[], [], Or.inr ⟨rfl, by decide⟩, rfl, hbody⟩
      · by_cases hc : c = 10
        · obtain rfl := hc
          exact ⟨[10], body, Or.inl rfl, rfl, (longBody_cons.mp hbody).2.2⟩
        · exact ⟨[], c :: body, Or.inr ⟨rfl, hc⟩, rfl, hbody⟩
    obtain ⟨L, line', hopen, hread⟩ := readLong_open line hnl hbody' r
    refine ⟨line', ?_⟩
    change (skipComment ⟨45 :: 45 :: (longOpen n ++ (nl ++ body') ++ longClose n ++ r), line⟩).map _ = _
    unfold skipComment
    dsimp only
    rw [← List.append_assoc (longOpen n), show List.drop 2 (45 :: 45 :: (longOpen n ++ nl ++ body' ++ longClose n ++ r)) =
      longOpen n ++ nl ++ body' ++ longClose n ++ r from rfl, hopen]
    dsimp only
    rw [hread]
    rfl

/-! ## The whole -/

/-- A text of lexemes: blanks, a lexeme with the end or white space behind it, and so on. -/
inductive Spaced (bits : ℕ) (strtod : List UInt8 → F64) : List UInt8 → List Sym → Prop
  | done (p rest : List UInt8) (hgap : Gap p rest) (hend : rest.headD 0 = 0) : Spaced bits strtod p []
  | lexeme (p w rest : List UInt8) (y : Sym) (ys : List Sym) (hgap : Gap p (w ++ rest)) (h : Lexeme bits strtod w y)
    (hrest : Stops rest) (h' : Spaced bits strtod rest ys) : Spaced bits strtod p (y :: ys)

theorem blank_head (h : Blank w r) : (w ++ r).headD 0 ≠ 0 ∧ 0 < w.length := by
  rcases h with ⟨c, _, hc⟩ | ⟨s, _, hs, hopen, hrest⟩ | ⟨n, body, _, hbody⟩
  · refine ⟨?_, Nat.one_pos⟩
    rintro h
    obtain rfl : c = 0 := h
    exact absurd hc (by decide)
  · exact ⟨(by decide : (45 : UInt8) ≠ 0), Nat.succ_pos _⟩
  · exact ⟨(by decide : (45 : UInt8) ≠ 0), Nat.succ_pos _⟩

theorem lexeme_head (h : Lexeme bits strtod w y) : (w ++ r).headD 0 ≠ 0 ∧ 0 < w.length := by
  have hdigits : ∀ ds : List UInt8, ds ≠ [] → (∀ d ∈ ds, isdigit d = true) → ∀ s, (ds ++ s).headD 0 ≠ 0 ∧ 0 < ds.length := by
    rintro (_ | ⟨d, ds⟩) hne hds s
    · exact absurd rfl hne
    · refine ⟨?_, Nat.succ_pos _⟩
      rintro h
      obtain rfl : d = 0 := h
      exact absurd (hds 0 List.mem_cons_self) (by decide)
  rcases h with ⟨c, s, hc, hs⟩ | ⟨_, hne, hds, hsmall⟩ | ⟨_, hne, hds, hlarge⟩ | ⟨x, hs, hx, hhs⟩ | ⟨_, hfloat⟩ |
    ⟨q, body, ds, hdec⟩ | ⟨n, nl, body, hnl, hbody⟩ | _ | ⟨c, d, kind, hmem⟩ | ⟨c, kind, hmem⟩
  · refine ⟨?_, Nat.succ_pos _⟩
    rintro h
    obtain rfl : c = 0 := h
    exact absurd hc (by decide)
  · exact hdigits w hne hds r
  · exact hdigits w hne hds r
  · exact ⟨(by decide : (48 : UInt8) ≠ 0), Nat.succ_pos _⟩
  · rcases hfloat with ⟨ds, f, e, hne, hds, hf, he, hfe⟩ | ⟨x, hs, f, e, hx, hhs, hf, he, hfe⟩ | ⟨ds, e, hne, hds, he⟩
    · obtain ⟨hhead, hpos⟩ := hdigits ds hne hds (f ++ (e ++ r))
      rw [List.append_assoc, List.append_assoc, List.length_append, List.length_append]
      exact ⟨hhead, by omega⟩
    · exact ⟨(by decide : (48 : UInt8) ≠ 0), Nat.succ_pos _⟩
    · exact ⟨(by decide : (46 : UInt8) ≠ 0), Nat.succ_pos _⟩
  · exact ⟨quote_ne_zero, Nat.succ_pos _⟩
  · exact ⟨(by decide : (91 : UInt8) ≠ 0), Nat.succ_pos _⟩
  · exact ⟨(by decide : (46 : UInt8) ≠ 0), Nat.succ_pos _⟩
  · exact ⟨(twos_punct _ hmem).1.1, Nat.succ_pos _⟩
  · exact ⟨(ones_punct _ hmem).1, Nat.succ_pos _⟩

/-- The loop goes over a gap. -/
theorem lexLoop_gap {ts : List Sym} (hgap : Gap p r)
    (h : ∀ fuel line, r.length < fuel → ∃ us, lexLoop bits strtod fuel ⟨r, line⟩ = .ok us ∧ us.map Token.sym = ts) :
    ∀ fuel line, p.length < fuel → ∃ us, lexLoop bits strtod fuel ⟨p, line⟩ = .ok us ∧ us.map Token.sym = ts := by
  induction hgap with
  | none p => exact h
  | blank w p rest hblank hgap ih =>
    intro fuel line hfuel
    obtain ⟨hhead, hpos⟩ := blank_head hblank
    rw [List.length_append] at hfuel
    rcases fuel with _ | fuel
    · exact absurd hfuel (Nat.not_lt_zero _)
    · obtain ⟨line', hstep⟩ := @lexStep_blank bits p w strtod hblank line
      obtain ⟨us, hus, hsym⟩ := ih h fuel line' (by omega)
      refine ⟨us, ?_, hsym⟩
      unfold lexLoop
      rw [if_neg hhead, hstep]
      change (lexLoop bits strtod fuel ⟨p, line'⟩ >>= _) = _
      rw [hus]
      rfl

theorem lexLoop_spaced {ys : List Sym} (hbits : 4 ≤ bits) (h : Spaced bits strtod p ys) :
    ∀ fuel line, p.length < fuel →
      ∃ ts, lexLoop bits strtod fuel ⟨p, line⟩ = .ok ts ∧ ts.map Token.sym = ys ++ [.tok .eof] := by
  induction h with
  | done p rest hgap hend =>
    refine lexLoop_gap hgap fun fuel line hfuel => ?_
    rcases fuel with _ | fuel
    · exact absurd hfuel (Nat.not_lt_zero _)
    · exact ⟨_, if_pos hend, rfl⟩
  | lexeme p w rest y ys hgap hlex hrest h' ih =>
    refine lexLoop_gap hgap fun fuel line hfuel => ?_
    obtain ⟨hhead, hpos⟩ := lexeme_head (r := rest) hlex
    rw [List.length_append] at hfuel
    rcases fuel with _ | fuel
    · exact absurd hfuel (Nat.not_lt_zero _)
    · obtain ⟨t, line', hstep, hsym⟩ := lexStep_lexeme hbits hlex hrest line
      obtain ⟨ts, hts, hsyms⟩ := ih fuel line' (by omega)
      refine ⟨t :: ts, ?_, ?_⟩
      · unfold lexLoop
        rw [if_neg hhead, hstep]
        change (lexLoop bits strtod fuel ⟨rest, line'⟩ >>= _) = _
        rw [hts]
        rfl
      · rw [List.map_cons, hsym, hsyms, List.cons_append]

/-- A program that is written as lexemes is lexed into what they stand for, with the end behind them. -/
theorem lex_spaced {ys : List Sym} {source : List UInt8} (hbits : 4 ≤ bits)
    (h : Spaced bits strtod (skipHash source) ys) :
    ∃ ts, lex bits strtod source = .ok ts ∧ ts.map Token.sym = ys ++ [.tok .eof] := by
  refine lexLoop_spaced hbits h _ 1 ?_
  unfold skipHash
  split_ifs
  · exact Nat.lt_succ_of_le (List.length_dropWhile_le _ _)
  · exact Nat.lt_succ_self _

/-- The text `if x == 0x1F --c`, and `"a\n"` on the next line. -/
theorem lex_spaced_condition :
    ∃ ts, lex 64 (fun _ => ⟨0⟩)
      [105, 102, 32, 120, 32, 61, 61, 32, 48, 120, 49, 70, 32, 45, 45, 99, 10, 34, 97, 92, 110, 34] = .ok ts ∧
    ts.map Token.sym = [.tok .kwIf, .name (latin [120]), .tok .eq, .int 31, .str (latin [97, 10]), .tok .eof] := by
  refine @lex_spaced 64 (fun _ => ⟨0⟩) [.tok .kwIf, .name (latin [120]), .tok .eq, .int 31, .str (latin [97, 10])] _
    (by decide) ?_
  have hblank : ∀ p, Gap (32 :: p) p := fun p => Gap.blank [32] p p (Blank.space 32 p rfl) (Gap.none p)
  have hcomment : ∀ p, Gap ([32, 45, 45, 99, 10] ++ p) p := by
    intro p
    refine Gap.blank [32] _ p (Blank.space 32 _ rfl) ?_
    refine Gap.blank [45, 45, 99] (10 :: p) p (Blank.line [99] _ (by simp) (fun n h => ?_) (Or.inr rfl)) ?_
    · have hhead := List.cons_prefix_cons.mp h
      exact absurd hhead.1 (by decide)
    · exact Gap.blank [10] p p (Blank.space 10 p rfl) (Gap.none p)
  have hif := @Lexeme.word 64 (fun _ => ⟨0⟩) 105 [102] rfl (by decide +kernel)
  have hname := @Lexeme.word 64 (fun _ => ⟨0⟩) 120 [] rfl (by simp)
  have hhex := @Lexeme.hex 64 (fun _ => ⟨0⟩) 120 [49, 70] (Or.inl rfl) (by decide +kernel)
  have htext : Decodes (codeRules 64) .double [97, 92, 110, 34] [97, 10] [] := by
    refine Decodes.step _ [92, 110, 34] [97] [10] _ (Piece.plain 97 _ (by decide) (by decide)) ?_
    exact Decodes.step _ [34] [10] [] _ (Piece.single 110 10 _ (by decide)) (Decodes.close [])
  refine Spaced.lexeme _ [105, 102] _ _ _ (Gap.none _) hif (Or.inr rfl) ?_
  refine Spaced.lexeme _ [120] _ _ _ (hblank _) hname (Or.inr rfl) ?_
  refine Spaced.lexeme _ [61, 61] _ _ _ (hblank _) (Lexeme.two 61 61 .eq (by simp [twos])) (Or.inr rfl) ?_
  refine Spaced.lexeme _ [48, 120, 49, 70] _ _ _ (hblank _) hhex (Or.inr rfl) ?_
  refine Spaced.lexeme _ [34, 97, 92, 110, 34] [] _ _ (hcomment _) (Lexeme.quoted .double _ _ htext) (Or.inl rfl) ?_
  exact Spaced.done [] [] (Gap.none []) rfl

end

end Lua2wasm.Lexer
