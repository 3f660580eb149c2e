import Lua2wasm.Lexer.Escapes
import Lua2wasm.Lib.Fallible

/-!
# Quoted strings are read by the grammar

A pass of the loop of `read_string` reads a `Piece` (`step_of_piece`, `piece_of_step`), and the scan beforehand counts
at least what it stands for (`prescan_piece`). So the whole reads a literal by `codeRules`, within its buffer
(`readString_spec`). Lua's rules are stricter in two places, and `readString_lua` says which texts are read otherwise:
those `Slipped` describes.
-/

namespace Lua2wasm.Lexer

open Utf8Form (Shortest)
open Fallible (ok_inj)

section

variable {bits n v cp line line' : ℕ} {c a b e : UInt8} {s s' d ds hs rest : List UInt8} {q : Quote}
variable {bits' : ℕ} {r : List UInt8 × Lex}

/-! ## One pass of the loop -/

theorem readEscape_single {x : UInt8 × UInt8} (h : x ∈ singleEscapes) :
    readEscape bits (x.1 :: s) line = .ok ([x.2], ⟨s, line⟩) := by
  have hfind : ∀ x ∈ singleEscapes, singleEscapes.find? (fun y => y.1 = x.1) = some x := by
    simp [singleEscapes]
  unfold readEscape
  dsimp only
  rw [hfind x h]

/-- An escape that is none of one letter. -/
theorem readEscape_else (h : ∀ x ∈ singleEscapes, x.1 ≠ e) : singleEscapes.find? (fun x => x.1 = e) = none := by
  rw [List.find?_eq_none]
  intro x hx
  simpa using h x hx

theorem readEscape_digit (bits line : ℕ) (s : List UInt8) (h : isdigit e = true) :
    readEscape bits (e :: s) line = if 255 < (readDec 3 (e :: s) 0).1
      then .error (.error line "decimal escape '\\ddd' out of range")
      else .ok ([(readDec 3 (e :: s) 0).1.toUInt8], ⟨(readDec 3 (e :: s) 0).2, line⟩) := by
  have hne : ∀ x : UInt8, isdigit x = false → e ≠ x := by
    rintro x hx rfl
    rw [h] at hx
    exact absurd hx (by decide)
  unfold readEscape
  dsimp only
  have hsingle : ∀ x ∈ singleEscapes, isdigit x.1 = false := by simp [singleEscapes, isdigit]
  rw [readEscape_else fun x hx => (hne x.1 (hsingle x hx)).symm]
  rw [if_neg (hne 120 (by decide)), if_neg (hne 122 (by decide)),
    if_neg (not_or.mpr ⟨hne 10 (by decide), hne 13 (by decide)⟩), if_neg (hne 117 (by decide)), if_pos h]

theorem readEscape_break (h : e = 10 ∨ e = 13) :
    readEscape bits (e :: s) line = .ok ([10], ⟨if (e = 13 ∧ s.head? = some 10) ∨ (e = 10 ∧ s.head? = some 13)
      then s.tail else s, line + 1⟩) := by
  rcases h with rfl | rfl <;> rfl

theorem readEscape_utf8 : readEscape bits (117 :: 123 :: s) line = match readHex bits s 0 false with
    | none => .error (.error line "UTF-8 value too large in '\\u\x7b...\x7d'")
    | some r =>
      if !r.seen || r.rest.head? ≠ some 125 then .error (.error line "malformed '\\u\x7b...\x7d' escape")
      else .ok (encodeUtf8 r.cp.toUInt32, ⟨r.rest.tail, line⟩) :=
  rfl

/-- A step of the loop writes what a piece stands for. -/
theorem step_of_piece (line : ℕ) (hbits : 4 ≤ bits) (h : Piece (codeRules bits) q s d s') :
    ∃ line', stringStep bits ⟨s, line⟩ = .ok (d, ⟨s', line'⟩) := by
  unfold stringStep
  rcases h with ⟨c, _, hc, -⟩ | ⟨e, c, _, h⟩ | ⟨a, b, _, ha, hb⟩ | ⟨ds, _, hne, hlen, hds, hmax, hval⟩ |
    ⟨ws, _, hws, hmax⟩ | ⟨br, _, hbr, hmax⟩ | ⟨hs, _, _, v, hne, hhs, hv, hbs⟩
  · exact ⟨line, (if_neg hc.2.2.2).trans (if_pos hc.2.2.1)⟩
  · exact ⟨line, readEscape_single h⟩
  · refine ⟨line, ?_⟩
    obtain ⟨hva, hlta⟩ := hexVal_eq a ha
    obtain ⟨hvb, hltb⟩ := hexVal_eq b hb
    have hbyte : (hexVal a <<< 4) ||| hexVal b = 16 * hexDigit a + hexDigit b := by
      rw [hva, hvb, Nat.shiftLeft_eq, Nat.mul_comm, ← Nat.two_pow_add_eq_or_of_lt hltb]
    show (if isxdigit a && isxdigit b then
      Except.ok ([((hexVal a <<< 4) ||| hexVal b).toUInt8], (⟨s', line⟩ : Lex)) else _) = _
    rw [ha, hb, if_pos (by decide), hbyte]
  · refine ⟨line, ?_⟩
    have hread : readDec 3 (ds ++ s') 0 = (decValue ds, s') :=
      (readDec_iff 3 _ 0).mpr ⟨ds, rfl, hlen, hds, hmax, rfl⟩
    rcases ds with _ | ⟨e, ds⟩
    · exact absurd rfl hne
    · have hesc := readEscape_digit bits line (ds ++ s') (hds e List.mem_cons_self)
      rw [← List.cons_append, hread, if_neg (by simpa using hval)] at hesc
      exact hesc
  · have hskip : (skipSpace (ws ++ s') line).1 = s' := skipSpace_iff.mpr ⟨ws, rfl, hws, hmax⟩
    refine ⟨(skipSpace (ws ++ s') line).2, ?_⟩
    show Except.ok ([], (⟨(skipSpace (ws ++ s') line).1, (skipSpace (ws ++ s') line).2⟩ : Lex)) = _
    rw [hskip]
  · refine ⟨line + 1, ?_⟩
    -- a break of one character is followed by none that goes with it
    have hlone : ∀ e f : UInt8, [e, f] ∈ lineBreaks → br = [e] → s'.head? ≠ some f := by
      rintro e f hef rfl hf
      rcases s' with _ | ⟨x, s'⟩
      · exact absurd hf (by simp)
      · obtain rfl := Option.some_inj.mp hf
        exact absurd (hmax _ hef (List.prefix_append [e, x] s')) (by simp)
    have hbr' : br = [10] ∨ br = [13] ∨ br = [13, 10] ∨ br = [10, 13] := by simpa [lineBreaks] using hbr
    rcases hbr' with rfl | rfl | rfl | rfl
    · have hne := hlone 10 13 (by decide) rfl
      show readEscape bits (10 :: s') line = _
      rw [readEscape_break (Or.inl rfl), if_neg (by simpa using hne)]
    · have hne := hlone 13 10 (by decide) rfl
      show readEscape bits (13 :: s') line = _
      rw [readEscape_break (Or.inr rfl), if_neg (by simpa using hne)]
    · rfl
    · rfl
  · refine ⟨line, ?_⟩
    have hread : readHex bits (hs ++ 125 :: s') 0 false = some ⟨v, true, 125 :: s'⟩ :=
      (readHex_iff hbits _ _ _).mpr ⟨hs, rfl, Or.inr hne, hhs, hv⟩
    show readEscape bits (117 :: 123 :: (hs ++ 125 :: s')) line = _
    rw [readEscape_utf8, hread]
    show Except.ok (encodeUtf8 v.toUInt32, (⟨s', line⟩ : Lex)) = _
    rw [shortest_unique (encodeUtf8_spec (wrappedValue_le (Nat.zero_le _) hv)) hbs]

theorem piece_of_hex (h : readEscape bits (120 :: s) line = .ok (d, ⟨s', line'⟩)) :
    Piece (codeRules bits) q (92 :: 120 :: s) d s' := by
  rcases s with _ | ⟨a, _ | ⟨b, s⟩⟩
  · exact absurd h (by simp [readEscape, singleEscapes])
  · exact absurd h (by simp [readEscape, singleEscapes])
  · have hesc : readEscape bits (120 :: a :: b :: s) line = if isxdigit a && isxdigit b
      then .ok ([((hexVal a <<< 4) ||| hexVal b).toUInt8], ⟨s, line⟩)
      else .error (.error line "hexadecimal digit expected after '\\x'") := rfl
    rw [hesc] at h
    split_ifs at h with hab
    rw [Bool.and_eq_true] at hab
    obtain ⟨hva, hlta⟩ := hexVal_eq a hab.1
    obtain ⟨hvb, hltb⟩ := hexVal_eq b hab.2
    rw [hva, hvb, Nat.shiftLeft_eq, Nat.mul_comm, ← Nat.two_pow_add_eq_or_of_lt hltb] at h
    obtain ⟨rfl, hL⟩ := ok_inj h
    obtain ⟨rfl, -⟩ := Lex.mk.inj hL
    exact Piece.hex a b s hab.1 hab.2

theorem piece_of_digit (hd : isdigit e = true) (h : readEscape bits (e :: s) line = .ok (d, ⟨s', line'⟩)) :
    Piece (codeRules bits) q (92 :: e :: s) d s' := by
  rcases hread : readDec 3 (e :: s) 0 with ⟨v, r⟩
  rw [readEscape_digit bits line s hd, hread] at h
  split_ifs at h with hbig
  obtain ⟨rfl, hL⟩ := ok_inj h
  obtain ⟨rfl, -⟩ := Lex.mk.inj hL
  obtain ⟨ds, hds, hlen, hdig, hmax, rfl⟩ := (readDec_iff 3 (e :: s) 0).mp hread
  rw [hds]
  refine Piece.decimal ds r ?_ hlen hdig hmax (not_lt.mp hbig)
  -- the first of them is a digit
  rintro rfl
  rcases hmax with hmax | hmax
  · exact absurd hmax (by simp)
  · rw [← List.nil_append r, ← hds, List.headD_cons, hd] at hmax
    exact absurd hmax (by decide)

theorem piece_of_break (he : e = 10 ∨ e = 13) (h : readEscape bits (e :: s) line = .ok (d, ⟨s', line'⟩)) :
    Piece (codeRules bits) q (92 :: e :: s) d s' := by
  rw [readEscape_break he] at h
  obtain ⟨rfl, hL⟩ := ok_inj h
  obtain ⟨hs, -⟩ := Lex.mk.inj hL
  split_ifs at hs with hpair
  · -- a break of two characters: none is longer
    obtain ⟨f, hf, hbr⟩ : ∃ f, s = f :: s' ∧ [e, f] ∈ lineBreaks := by
      rcases s with _ | ⟨f, s⟩
      · simp at hpair
      · refine ⟨f, by rw [← hs]; rfl, ?_⟩
        rcases hpair with ⟨rfl, hf⟩ | ⟨rfl, hf⟩
        · obtain rfl := Option.some_inj.mp hf
          decide
        · obtain rfl := Option.some_inj.mp hf
          decide
    rw [hf]
    exact Piece.lineBreak [e, f] s' hbr fun br hmem _ => (by decide : ∀ br ∈ lineBreaks, br.length ≤ 2) br hmem
  · obtain rfl := hs
    refine Piece.lineBreak [e] s ?_ ?_
    · rcases he with rfl | rfl
      · decide
      · decide
    · intro br hmem hpre
      rw [not_or, not_and, not_and] at hpair
      have hbr : br = [10] ∨ br = [13] ∨ br = [13, 10] ∨ br = [10, 13] := by simpa [lineBreaks] using hmem
      rcases hbr with rfl | rfl | rfl | rfl
      · exact le_rfl
      · exact le_rfl
      · obtain ⟨rfl, t, rfl⟩ : 13 = e ∧ [10] <+: s := by simpa using hpre
        exact absurd rfl (hpair.1 rfl)
      · obtain ⟨rfl, t, rfl⟩ : 10 = e ∧ [13] <+: s := by simpa using hpre
        exact absurd rfl (hpair.2 rfl)

theorem piece_of_utf8 (hbits : 4 ≤ bits) (h : readEscape bits (117 :: s) line = .ok (d, ⟨s', line'⟩)) :
    Piece (codeRules bits) q (92 :: 117 :: s) d s' := by
  by_cases hbrace : s.head? = some 123
  · obtain ⟨s, rfl⟩ := List.head?_eq_some_iff.mp hbrace
    rw [readEscape_utf8] at h
    rcases hread : readHex bits s 0 false with _ | ⟨v, seen, r⟩
    · rw [hread] at h
      exact absurd h (by simp)
    · rw [hread] at h
      dsimp only at h
      split_ifs at h with hbad
      obtain ⟨rfl, hL⟩ := ok_inj h
      obtain ⟨rfl, -⟩ := Lex.mk.inj hL
      obtain ⟨rfl, hr⟩ : seen = true ∧ r.head? = some 125 := by simpa using hbad
      obtain ⟨r, rfl⟩ := List.head?_eq_some_iff.mp hr
      obtain ⟨hs, rfl, hne, hhs, hv⟩ := (readHex_iff hbits _ _ _).mp hread
      exact Piece.utf8 hs r _ v (hne.resolve_left (by decide)) hhs hv
        (encodeUtf8_spec (wrappedValue_le (Nat.zero_le _) hv))
  · have hesc : readEscape bits (117 :: s) line = if s.head? ≠ some 123
      then .error (.error line "'\x7b' expected after '\\u'") else readEscape bits (117 :: s) line := by
      rw [if_pos hbrace]
      exact if_pos hbrace
    rw [hesc, if_pos hbrace] at h
    exact absurd h (by simp)

theorem piece_of_escape (hbits : 4 ≤ bits) (h : readEscape bits s line = .ok (d, ⟨s', line'⟩)) :
    Piece (codeRules bits) q (92 :: s) d s' := by
  rcases s with _ | ⟨e, s⟩
  · exact absurd h (by unfold readEscape; simp)
  · rcases hfind : singleEscapes.find? (fun x => x.1 = e) with _ | x
    · by_cases hx : e = 120
      · obtain rfl := hx
        exact piece_of_hex h
      · by_cases hz : e = 122
        · obtain rfl := hz
          obtain ⟨rfl, hL⟩ := ok_inj h
          obtain ⟨hs, -⟩ := Lex.mk.inj hL
          obtain ⟨ws, rfl, hws, hmax⟩ := skipSpace_iff.mp hs
          exact Piece.skip ws s' hws hmax
        · by_cases hbr : e = 10 ∨ e = 13
          · exact piece_of_break hbr h
          · by_cases hu : e = 117
            · obtain rfl := hu
              exact piece_of_utf8 hbits h
            · by_cases hd : isdigit e = true
              · exact piece_of_digit hd h
              · exact absurd h (by simp [readEscape, hfind, hx, hz, hbr, hu, hd])
    · obtain rfl : x.1 = e := by simpa using List.find?_some hfind
      rw [readEscape_single (List.mem_of_find?_eq_some hfind)] at h
      obtain ⟨rfl, hL⟩ := ok_inj h
      obtain ⟨rfl, -⟩ := Lex.mk.inj hL
      exact Piece.single x.1 x.2 s (List.mem_of_find?_eq_some hfind)

/-- What a step of the loop writes is what a piece stands for. -/
theorem piece_of_step (hbits : 4 ≤ bits) (h0 : s.headD 0 ≠ 0) (hq : s.headD 0 ≠ q.byte)
    (h : stringStep bits ⟨s, line⟩ = .ok (d, ⟨s', line'⟩)) : Piece (codeRules bits) q s d s' := by
  rcases s with _ | ⟨c, s⟩
  · exact absurd rfl h0
  · unfold stringStep at h
    dsimp only at h
    by_cases hnl : c = 10
    · rw [if_pos hnl] at h
      exact absurd h (by simp)
    · rw [if_neg hnl] at h
      by_cases hesc : c = 92
      · rw [if_neg (not_not.mpr hesc)] at h
        obtain rfl := hesc
        exact piece_of_escape hbits h
      · rw [if_pos hesc] at h
        obtain ⟨rfl, hL⟩ := ok_inj h
        obtain ⟨rfl, -⟩ := Lex.mk.inj hL
        exact Piece.plain c s ⟨h0, hq, hesc, hnl⟩ fun _ => rfl

/-! ## The buffer -/

/-- Characters that are neither a quote nor a backslash, a byte each. -/
theorem prescan_append (h : ∀ c ∈ s, c ≠ 0 ∧ c ≠ q.byte ∧ c ≠ 92) :
    prescan q.byte (s ++ s') = s.length + prescan q.byte s' := by
  induction s with
  | nil => rw [List.nil_append, List.length_nil, Nat.zero_add]
  | cons c s ih =>
    obtain ⟨h0, hq, hesc⟩ := h c List.mem_cons_self
    have ih := ih fun x hx => h x (List.mem_cons_of_mem _ hx)
    rw [List.cons_append, List.length_cons, Nat.add_right_comm, ← ih]
    rcases s ++ s' with _ | ⟨d, r⟩
    · unfold prescan
      rw [if_neg (not_or.mpr ⟨h0, hq⟩)]
    · conv_lhs => unfold prescan
      rw [if_neg (not_or.mpr ⟨h0, hq⟩), if_neg (not_and_of_not_left _ hesc)]

/-- A backslash and what follows, a byte together. -/
theorem prescan_escape (he : e ≠ 0) : prescan q.byte (92 :: e :: s) = prescan q.byte s + 1 := by
  conv_lhs => unfold prescan
  rw [if_neg (by cases q <;> decide), if_pos ⟨rfl, he⟩]

/-- What is neither a quote nor a backslash. -/
def Inert (c : UInt8) : Prop := ∀ q : Quote, c ≠ 0 ∧ c ≠ q.byte ∧ c ≠ 92

theorem inert_of_xdigit (h : isxdigit c = true) : Inert c := by
  have hne : ∀ x : UInt8, isxdigit x = false → c ≠ x := by
    rintro x hx rfl
    rw [h] at hx
    exact absurd hx (by decide)
  rintro (_ | _)
  · exact ⟨hne _ (by decide), hne _ (by decide), hne _ (by decide)⟩
  · exact ⟨hne _ (by decide), hne _ (by decide), hne _ (by decide)⟩

theorem inert_of_space (h : isspace c = true) : Inert c := by
  have hne : ∀ x : UInt8, isspace x = false → c ≠ x := by
    rintro x hx rfl
    rw [h] at hx
    exact absurd hx (by decide)
  rintro (_ | _)
  · exact ⟨hne _ (by decide), hne _ (by decide), hne _ (by decide)⟩
  · exact ⟨hne _ (by decide), hne _ (by decide), hne _ (by decide)⟩

theorem inert_of_digit (h : isdigit c = true) : Inert c :=
  inert_of_xdigit (by rw [isxdigit, h]; rfl)

/-- Few digits have a small value. -/
theorem wrappedValue_lt (hhs : ∀ h ∈ hs, isxdigit h = true) (h : wrappedValue bits hs cp = some v) :
    v < (cp + 1) * 16^hs.length := by
  induction hs generalizing cp with
  | nil =>
    obtain rfl : cp = v := Option.some_inj.mp h
    rw [List.length_nil, pow_zero, Nat.mul_one]
    exact Nat.lt_succ_self cp
  | cons c hs ih =>
    unfold wrappedValue at h
    split_ifs at h with hbig
    have hlt := (hexVal_eq c (hhs c List.mem_cons_self)).2
    have hmod := Nat.mod_le (cp * 16) (2^bits)
    calc
      v < (cp * 16 % 2^bits + hexDigit c + 1) * 16^hs.length :=
          ih (fun x hx => hhs x (List.mem_cons_of_mem _ hx)) h
      _ ≤ (cp + 1) * 16 * 16^hs.length := Nat.mul_le_mul_right _ (by omega)
      _ = (cp + 1) * 16^(c :: hs).length := by rw [List.length_cons, pow_succ', ← Nat.mul_assoc]

/-- A code point has at most three bytes more than digits. -/
theorem shortest_length {bs : List UInt8} (hhs : ∀ h ∈ hs, isxdigit h = true)
    (hv : wrappedValue bits hs 0 = some v) (hbs : Shortest v bs) : bs.length ≤ hs.length + 3 := by
  obtain ⟨w, ⟨hpos, hle, -⟩, hmin, rfl⟩ := hbs
  rw [Utf8Form.length_form hpos]
  by_cases hlen : hs.length ≤ 2
  · have hlt := wrappedValue_lt hhs hv
    have hpow : 16^hs.length ≤ 16^2 := Nat.pow_le_pow_right (by decide) hlen
    have hfit : Utf8Form.Fits 2 v := ⟨by decide, by decide, by
      show v < 2^11
      omega⟩
    have := hmin 2 hfit
    omega
  · omega

/-- What a piece stands for is no longer than the scan says, and there is less text behind. -/
theorem prescan_piece (h : Piece (codeRules bits) q s d s') :
    d.length + prescan q.byte s' ≤ prescan q.byte s ∧ s'.length < s.length := by
  have hinert : ∀ l : List UInt8, (∀ c ∈ l, Inert c) →
      ∀ r, prescan q.byte (l ++ r) = l.length + prescan q.byte r :=
    fun l hl r => prescan_append fun c hc => hl c hc q
  rcases h with ⟨c, _, hc, -⟩ | ⟨e, c, _, h⟩ | ⟨a, b, _, ha, hb⟩ | ⟨ds, _, hne, hlen, hds, hmax, hval⟩ |
    ⟨ws, _, hws, hmax⟩ | ⟨br, _, hbr, hmax⟩ | ⟨hs, _, _, v, hne, hhs, hv, hbs⟩
  -- a plain byte counts as one, and an escape as one or more
  · have hscan : prescan q.byte (c :: s') = 1 + prescan q.byte s' :=
      prescan_append (s := [c]) (by simpa using ⟨hc.1, hc.2.1, hc.2.2.1⟩)
    rw [hscan]
    exact ⟨le_rfl, Nat.lt_succ_self _⟩
  · have he : e ≠ 0 := (by simp [singleEscapes] : ∀ x ∈ singleEscapes, x.1 ≠ 0) _ h
    rw [prescan_escape he, List.length_singleton, List.length_cons, List.length_cons]
    omega
  · have hscan := hinert [a, b] (by simpa using ⟨inert_of_xdigit ha, inert_of_xdigit hb⟩) s'
    rw [prescan_escape (by decide), show a :: b :: s' = [a, b] ++ s' from rfl, hscan]
    simp only [List.length_cons, List.length_nil, List.length_append]
    omega
  · rcases ds with _ | ⟨e, ds⟩
    · exact absurd rfl hne
    · have hscan := hinert ds (fun c hc => inert_of_digit (hds c (List.mem_cons_of_mem _ hc))) s'
      rw [List.cons_append, prescan_escape (inert_of_digit (hds e List.mem_cons_self) q).1, hscan]
      simp only [List.length_cons, List.length_nil, List.length_append]
      omega
  · have hscan := hinert ws (fun c hc => inert_of_space (hws c hc)) s'
    rw [prescan_escape (by decide), hscan]
    simp only [List.length_cons, List.length_nil, List.length_append]
    omega
  · obtain ⟨e, br, rfl, he, hbr⟩ : ∃ e r, br = e :: r ∧ e ≠ 0 ∧ ∀ c ∈ r, Inert c := by
      have hbr' : br = [10] ∨ br = [13] ∨ br = [13, 10] ∨ br = [10, 13] := by simpa [lineBreaks] using hbr
      rcases hbr' with rfl | rfl | rfl | rfl
      · exact ⟨10, [], rfl, by decide, by simp⟩
      · exact ⟨13, [], rfl, by decide, by simp⟩
      · exact ⟨13, [10], rfl, by decide, by simpa using inert_of_space (by decide)⟩
      · exact ⟨10, [13], rfl, by decide, by simpa using inert_of_space (by decide)⟩
    rw [List.cons_append, prescan_escape he, hinert br hbr]
    simp only [List.length_cons, List.length_nil, List.length_append]
    omega
  · have hbrace : ∀ c ∈ 123 :: (hs ++ [125]), Inert c := by
      intro c hc
      rw [List.mem_cons, List.mem_append, List.mem_singleton] at hc
      rcases hc with rfl | hc | rfl
      · rintro (_ | _) <;> decide
      · exact inert_of_xdigit (hhs c hc)
      · rintro (_ | _) <;> decide
    have hscan := hinert _ hbrace s'
    have hlen := shortest_length hhs hv hbs
    rw [show 123 :: (hs ++ [125]) ++ s' = 123 :: (hs ++ 125 :: s') by simp] at hscan
    rw [prescan_escape (by decide), hscan]
    simp only [List.length_cons, List.length_nil, List.length_append]
    omega

/-! ## The whole -/

theorem decodes_cases {ru : Rules} (h : Decodes ru q s ds rest) :
    (s = q.byte :: rest ∧ ds = []) ∨ ∃ s' d ds', Piece ru q s d s' ∧ Decodes ru q s' ds' rest ∧ ds = d ++ ds' := by
  rcases h with _ | ⟨_, s', d, ds, _, h, h'⟩
  · exact Or.inl ⟨rfl, rfl⟩
  · exact Or.inr ⟨s', d, ds, h, h', rfl⟩

/-- A piece begins neither with a quote nor with the end of the text. -/
theorem piece_head {ru : Rules} (h : Piece ru q s d s') : s.headD 0 ≠ 0 ∧ s.headD 0 ≠ q.byte := by
  rcases h with ⟨c, _, hc, -⟩ | ⟨e, c, _, h⟩ | ⟨a, b, _, ha, hb⟩ | ⟨ds, _, hne, hlen, hds, hmax, hval⟩ |
    ⟨ws, _, hws, hmax⟩ | ⟨br, _, hbr, hmax⟩ | ⟨hs, _, _, v, hne, hhs, hv, hbs⟩
  · exact ⟨hc.1, hc.2.1⟩
  all_goals exact ⟨by simp, by cases q <;> simp [Quote.byte]⟩

theorem quote_ne_zero : q.byte ≠ 0 := by
  cases q <;> decide

/-- The errors a step can end with. -/
theorem readEscape_error {err : LexFault} (h : readEscape bits s line = .error err) :
    ∃ line msg, err = .error line msg := by
  unfold readEscape at h
  split at h
  · exact ⟨_, _, (Except.error.inj h).symm⟩
  · dsimp only at h
    split at h
    · exact absurd h (by simp)
    · split_ifs at h
      · split at h
        · split_ifs at h
          exact ⟨_, _, (Except.error.inj h).symm⟩
        · exact ⟨_, _, (Except.error.inj h).symm⟩
      · exact ⟨_, _, (Except.error.inj h).symm⟩
      · split at h
        · exact ⟨_, _, (Except.error.inj h).symm⟩
        · split_ifs at h
          exact ⟨_, _, (Except.error.inj h).symm⟩
      · exact ⟨_, _, (Except.error.inj h).symm⟩
      · exact ⟨_, _, (Except.error.inj h).symm⟩

theorem stringStep_error {L : Lex} {err : LexFault} (h : stringStep bits L = .error err) :
    ∃ line msg, err = .error line msg := by
  unfold stringStep at h
  split at h
  · exact absurd h (by simp)
  · split_ifs at h
    · exact ⟨_, _, (Except.error.inj h).symm⟩
    · exact readEscape_error h

/-- The loop with enough fuel and room reads the pieces of the text. -/
theorem decodeLoop_spec (line : ℕ) (buf : List UInt8) (hbits : 4 ≤ bits) {size fuel : ℕ} (hfuel : s.length < fuel)
    (hsize : buf.length + prescan q.byte s ≤ size) :
    (∀ out rest, (∃ line', decodeLoop bits q.byte size fuel ⟨s, line⟩ buf = .ok (out, ⟨q.byte :: rest, line'⟩)) ↔
      ∃ ds, out = buf ++ ds ∧ Decodes (codeRules bits) q s ds rest) ∧
    decodeLoop bits q.byte size fuel ⟨s, line⟩ buf ≠ .error .overflow ∧
    decodeLoop bits q.byte size fuel ⟨s, line⟩ buf ≠ .error .stuck := by
  induction fuel generalizing s line buf with
  | zero => exact absurd hfuel (Nat.not_lt_zero _)
  | succ fuel ih =>
    unfold decodeLoop
    -- the closing quote, or the end of the source
    by_cases hend : s.headD 0 = 0 ∨ s.headD 0 = q.byte
    · rw [if_pos hend]
      refine ⟨fun out rest => ?_, by simp, by simp⟩
      constructor
      · rintro ⟨line', h⟩
        obtain ⟨rfl, hL⟩ := ok_inj h
        obtain ⟨rfl, -⟩ := Lex.mk.inj hL
        exact ⟨[], (List.append_nil buf).symm, Decodes.close rest⟩
      · rintro ⟨ds, rfl, h⟩
        rcases decodes_cases h with ⟨rfl, rfl⟩ | ⟨s', d, ds', hp, -, -⟩
        · exact ⟨line, by rw [List.append_nil]⟩
        · exact absurd hend (not_or.mpr (piece_head hp))
    · rw [if_neg hend]
      rw [not_or] at hend
      rcases hstep : stringStep bits ⟨s, line⟩ with err | ⟨d, s', line'⟩
      · obtain ⟨l, msg, rfl⟩ := stringStep_error hstep
        refine ⟨fun out rest => ?_, by simp, by simp⟩
        constructor
        · rintro ⟨line', h⟩
          exact absurd h (by simp)
        · rintro ⟨ds, -, h⟩
          rcases decodes_cases h with ⟨rfl, -⟩ | ⟨s', d', ds', hp', -, -⟩
          · exact absurd rfl hend.2
          · obtain ⟨line', hstep'⟩ := step_of_piece line hbits hp'
            rw [hstep] at hstep'
            exact absurd hstep' (by simp)
      -- one piece is decoded, and the scan before has counted its bytes
      · have hp := piece_of_step hbits hend.1 hend.2 hstep
        obtain ⟨hscan, hlen⟩ := prescan_piece hp
        dsimp only
        rw [if_neg (by omega)]
        obtain ⟨hiff, hover, hstuck⟩ := @ih s' line' (buf ++ d) (by omega)
          (by rw [List.length_append]; omega)
        refine ⟨fun out rest => ?_, hover, hstuck⟩
        rw [hiff out rest]
        constructor
        · rintro ⟨ds, rfl, h⟩
          exact ⟨d ++ ds, List.append_assoc _ _ _, Decodes.step s s' d ds rest hp h⟩
        · rintro ⟨ds, rfl, h⟩
          rcases decodes_cases h with ⟨rfl, -⟩ | ⟨s'', d', ds', hp', hds, rfl⟩
          · exact absurd rfl hend.2
          · obtain ⟨line'', hstep'⟩ := step_of_piece line hbits hp'
            rw [hstep] at hstep'
            obtain ⟨rfl, hL⟩ := Prod.mk.inj (Except.ok.inj hstep')
            obtain ⟨rfl, -⟩ := Lex.mk.inj hL
            exact ⟨ds', (List.append_assoc _ _ _).symm, hds⟩

/-- `read_string` is its loop and the check for the closing quote. -/
theorem readString_eq (bits : ℕ) (c : UInt8) (L : Lex) : readString bits c L =
    (decodeLoop bits c (prescan c L.p.tail + 4) (L.p.tail.length + 1) ⟨L.p.tail, L.line⟩ []).bind fun r =>
      if r.2.p.headD 0 ≠ c then .error (.error r.2.line "unterminated string")
      else .ok (r.1, { r.2 with p := r.2.p.tail }) := by
  unfold readString
  congr 1

/-- `read_string` reads what is a literal by its rules, and does nothing worse than an error. -/
theorem readString_spec (line : ℕ) (hbits : 4 ≤ bits) :
    (∀ ds rest, (∃ line', readString bits q.byte ⟨q.byte :: s, line⟩ = .ok (ds, ⟨rest, line'⟩)) ↔
      Decodes (codeRules bits) q s ds rest) ∧
    readString bits q.byte ⟨q.byte :: s, line⟩ ≠ .error .overflow ∧
    readString bits q.byte ⟨q.byte :: s, line⟩ ≠ .error .stuck := by
  obtain ⟨hiff, hover, hstuck⟩ := decodeLoop_spec (q := q) line [] hbits (Nat.lt_succ_self s.length)
    (Nat.le_trans (Nat.zero_add _).le (Nat.le_add_right (prescan q.byte s) 4))
  have hrun := readString_eq bits q.byte ⟨q.byte :: s, line⟩
  dsimp only [List.tail_cons] at hrun
  rw [hrun]
  rcases hloop : decodeLoop bits q.byte (prescan q.byte s + 4) (s.length + 1) ⟨s, line⟩ [] with err | ⟨out, p, l⟩
  · rw [hloop] at hiff hover hstuck
    refine ⟨fun ds rest => ?_, hover, hstuck⟩
    constructor
    · rintro ⟨line', h⟩
      exact absurd h (by simp [Except.bind])
    · intro h
      obtain ⟨line', h⟩ := (hiff ds rest).mpr ⟨ds, rfl, h⟩
      exact absurd h (by simp)
  · rw [hloop] at hiff
    simp only [Except.bind, ne_eq]
    -- the loop has stopped at the closing quote, or at the end of the source
    by_cases hq : p.headD 0 = q.byte
    · rw [if_neg (not_not.mpr hq)]
      refine ⟨fun ds rest => ?_, by simp, by simp⟩
      obtain ⟨r, rfl⟩ : ∃ r, p = q.byte :: r := by
        rcases p with _ | ⟨c, r⟩
        · exact absurd hq.symm quote_ne_zero
        · exact ⟨r, by rw [← hq]; rfl⟩
      constructor
      · rintro ⟨line', h⟩
        obtain ⟨rfl, hL⟩ := ok_inj h
        obtain ⟨rfl, -⟩ := Lex.mk.inj hL
        obtain ⟨ds, rfl, h⟩ := (hiff out r).mp ⟨l, rfl⟩
        exact h
      · intro h
        obtain ⟨line', h⟩ := (hiff ds rest).mpr ⟨ds, rfl, h⟩
        obtain ⟨rfl, hL⟩ := ok_inj h
        obtain ⟨hr, -⟩ := Lex.mk.inj hL
        obtain ⟨-, rfl⟩ := List.cons.inj hr
        exact ⟨l, rfl⟩
    · rw [if_pos hq]
      refine ⟨fun ds rest => ?_, by simp, by simp⟩
      constructor
      · rintro ⟨line', h⟩
        exact absurd h (by simp)
      · intro h
        obtain ⟨line', h⟩ := (hiff ds rest).mpr ⟨ds, rfl, h⟩
        obtain ⟨rfl, hL⟩ := ok_inj h
        obtain ⟨rfl, -⟩ := Lex.mk.inj hL
        exact absurd rfl hq

/-! ## Lua's rules -/

theorem le_foldl (hs : List UInt8) (cp : ℕ) : cp ≤ hs.foldl (fun v c => v * 16 + hexDigit c) cp := by
  induction hs generalizing cp with
  | nil => exact le_rfl
  | cons c hs ih =>
    have := ih (cp * 16 + hexDigit c)
    rw [List.foldl_cons]
    omega

/-- A value that is small is not reduced. -/
theorem wrappedValue_small (hbits : 31 ≤ bits) (h : hs.foldl (fun v c => v * 16 + hexDigit c) cp ≤ 0x7FFFFFFF) :
    wrappedValue bits hs cp = some (hs.foldl (fun v c => v * 16 + hexDigit c) cp) := by
  induction hs generalizing cp with
  | nil => rfl
  | cons c hs ih =>
    have hle := le_foldl hs (cp * 16 + hexDigit c)
    rw [List.foldl_cons] at h ⊢
    have hpow : 2^31 ≤ 2^bits := Nat.pow_le_pow_right (by decide) hbits
    have hmod : cp * 16 % 2^bits = cp * 16 := Nat.mod_eq_of_lt (by omega)
    unfold wrappedValue
    rw [hmod, if_neg (by omega)]
    exact ih h

/-- In a type that is wide enough no value is reduced. -/
theorem wrappedValue_wide (hbits : 35 ≤ bits) (hcp : cp ≤ 0x7FFFFFFF) (h : wrappedValue bits hs cp = some v) :
    hs.foldl (fun v c => v * 16 + hexDigit c) cp = v := by
  induction hs generalizing cp with
  | nil => exact Option.some_inj.mp h
  | cons c hs ih =>
    have hpow : 2^35 ≤ 2^bits := Nat.pow_le_pow_right (by decide) hbits
    have hmod : cp * 16 % 2^bits = cp * 16 := Nat.mod_eq_of_lt (by omega)
    unfold wrappedValue at h
    rw [hmod] at h
    split_ifs at h with hbig
    exact ih (not_lt.mp hbig) h

/-- What rules allow is allowed by rules that are wider. -/
theorem piece_mono {ru ru' : Rules} (hcr : ru.rawCR = true → ru'.rawCR = true)
    (hcp : ∀ hs v, ru.codepoint hs = some v → ru'.codepoint hs = some v) (h : Piece ru q s d s') :
    Piece ru' q s d s' := by
  rcases h with ⟨c, _, hc, hcr'⟩ | ⟨e, c, _, h⟩ | ⟨a, b, _, ha, hb⟩ | ⟨ds, _, hne, hlen, hds, hmax, hval⟩ |
    ⟨ws, _, hws, hmax⟩ | ⟨br, _, hbr, hmax⟩ | ⟨hs, _, _, v, hne, hhs, hv, hbs⟩
  · exact Piece.plain c s' hc fun h => hcr (hcr' h)
  · exact Piece.single e c s' h
  · exact Piece.hex a b s' ha hb
  · exact Piece.decimal ds s' hne hlen hds hmax hval
  · exact Piece.skip ws s' hws hmax
  · exact Piece.lineBreak br s' hbr hmax
  · exact Piece.utf8 hs s' d v hne hhs (hcp hs v hv) hbs

theorem decodes_mono {ru ru' : Rules} (hcr : ru.rawCR = true → ru'.rawCR = true)
    (hcp : ∀ hs v, ru.codepoint hs = some v → ru'.codepoint hs = some v) (h : Decodes ru q s ds rest) :
    Decodes ru' q s ds rest := by
  induction h with
  | close rest => exact Decodes.close rest
  | step s s' d ds rest h _ ih => exact Decodes.step s s' d ds rest (piece_mono hcr hcp h) ih

/-- The code points of Lua are the lexer's. -/
theorem codepoint_lua (hbits : 31 ≤ bits) (hs : List UInt8) (v : ℕ) (h : luaRules.codepoint hs = some v) :
    (codeRules bits).codepoint hs = some v := by
  unfold luaRules at h
  dsimp only at h
  split_ifs at h with hle
  rw [← h]
  exact wrappedValue_small hbits hle

/-- A lexer with a wide type has the code points that the others have, too. -/
theorem codepoint_wide (hbits : 35 ≤ bits) (hbits' : 31 ≤ bits') (hs : List UInt8) (v : ℕ)
    (h : (codeRules bits).codepoint hs = some v) : (codeRules bits').codepoint hs = some v := by
  have hle := wrappedValue_le (Nat.zero_le _) h
  have hval := wrappedValue_wide hbits (Nat.zero_le _) h
  rw [← hval] at hle ⊢
  exact wrappedValue_small hbits' hle

/-- At the front of the text is what the lexer takes and Lua does not: a raw carriage return, or digits of `\u` with a
value that is too large, but not once it is reduced. -/
inductive Liberty (bits : ℕ) : List UInt8 → List UInt8 → Prop
  | rawCR (s : List UInt8) : Liberty bits (13 :: s) s
  | wrapped (hs s : List UInt8) (v : ℕ) (hne : hs ≠ []) (hhs : ∀ h ∈ hs, isxdigit h = true)
      (hbig : 0x7FFFFFFF < hexValue hs) (hv : wrappedValue bits hs 0 = some v) :
    Liberty bits (92 :: 117 :: 123 :: (hs ++ 125 :: s)) s

/-- The text behind an opening quote is a literal but for such liberties, and has one. -/
inductive Slipped (bits : ℕ) (q : Quote) : List UInt8 → Prop
  | here (s s' ds rest : List UInt8) (h : Liberty bits s s') (h' : Decodes (codeRules bits) q s' ds rest) :
    Slipped bits q s
  | there (s s' d : List UInt8) (h : Piece (codeRules bits) q s d s') (h' : Slipped bits q s') : Slipped bits q s

theorem piece_of_liberty (h : Liberty bits s s') : ∃ d, Piece (codeRules bits) q s d s' := by
  rcases h with ⟨s⟩ | ⟨hs, _, v, hne, hhs, -, hv⟩
  · exact ⟨[13], Piece.plain 13 s' (by cases q <;> decide) fun _ => rfl⟩
  · exact ⟨_, Piece.utf8 hs s' _ v hne hhs hv (encodeUtf8_spec (wrappedValue_le (Nat.zero_le _) hv))⟩

/-- A piece of the lexer is a piece of Lua or a liberty. -/
theorem piece_or_liberty (hbits : 31 ≤ bits) (h : Piece (codeRules bits) q s d s') :
    Piece luaRules q s d s' ∨ Liberty bits s s' := by
  rcases h with ⟨c, _, hc, hcr'⟩ | ⟨e, c, _, h⟩ | ⟨a, b, _, ha, hb⟩ | ⟨ds, _, hne, hlen, hds, hmax, hval⟩ |
    ⟨ws, _, hws, hmax⟩ | ⟨br, _, hbr, hmax⟩ | ⟨hs, _, _, v, hne, hhs, hv, hbs⟩
  · by_cases hcr : c = 13
    · obtain rfl := hcr
      exact Or.inr (Liberty.rawCR s')
    · exact Or.inl (Piece.plain c s' hc fun h => absurd h hcr)
  · exact Or.inl (Piece.single e c s' h)
  · exact Or.inl (Piece.hex a b s' ha hb)
  · exact Or.inl (Piece.decimal ds s' hne hlen hds hmax hval)
  · exact Or.inl (Piece.skip ws s' hws hmax)
  · exact Or.inl (Piece.lineBreak br s' hbr hmax)
  · by_cases hle : hexValue hs ≤ 0x7FFFFFFF
    · have hval : wrappedValue bits hs 0 = some (hexValue hs) := wrappedValue_small hbits hle
      obtain rfl : hexValue hs = v := Option.some_inj.mp (hval.symm.trans hv)
      exact Or.inl (Piece.utf8 hs s' d _ hne hhs (if_pos hle) hbs)
    · exact Or.inr (Liberty.wrapped hs s' v hne hhs (not_le.mp hle) hv)

/-- The digits before a brace. -/
theorem digits_inj {hs' r r' : List UInt8} (hhs : ∀ h ∈ hs, isxdigit h = true) (hhs' : ∀ h ∈ hs', isxdigit h = true)
    (h : hs ++ 125 :: r = hs' ++ 125 :: r') : hs = hs' := by
  have hbrace : ¬isxdigit 125 = true := by decide
  induction hs generalizing hs' with
  | nil =>
    rcases hs' with _ | ⟨c, hs'⟩
    · rfl
    · obtain ⟨rfl, -⟩ := List.cons.inj h
      exact absurd (hhs' 125 List.mem_cons_self) hbrace
  | cons c hs ih =>
    rcases hs' with _ | ⟨c', hs'⟩
    · obtain ⟨rfl, -⟩ := List.cons.inj h
      exact absurd (hhs 125 List.mem_cons_self) hbrace
    · obtain ⟨rfl, htail⟩ := List.cons.inj h
      rw [ih (fun x hx => hhs x (List.mem_cons_of_mem _ hx)) (fun x hx => hhs' x (List.mem_cons_of_mem _ hx)) htail]

/-- A liberty is no piece of Lua. -/
theorem liberty_not_lua {r : List UInt8} (h : Liberty bits s s') : ¬Piece luaRules q s d r := by
  intro hp
  rcases h with ⟨s⟩ | ⟨hs, _, v, hne, hhs, hbig, -⟩
  · generalize hx : 13 :: s' = x at hp
    rcases hp with ⟨c, _, -, hcr⟩ | _ | _ | _ | _ | _ | _
    · exact absurd (hcr (List.cons.inj hx).1.symm) (by decide)
    all_goals exact absurd (List.cons.inj hx).1 (by decide)
  · generalize hx : 92 :: 117 :: 123 :: (hs ++ 125 :: s') = x at hp
    rcases hp with ⟨c, _, hc, -⟩ | ⟨e, c, _, h⟩ | ⟨a, b, _, ha, hb⟩ | ⟨ds, _, hds, -, hdig, -, -⟩ |
      ⟨ws, _, hws, hmax⟩ | ⟨br, _, hbr, hmax⟩ | ⟨hs', _, _, v', -, hhs', hv', -⟩
    · exact absurd (List.cons.inj hx).1.symm hc.2.2.1
    · obtain rfl := (List.cons.inj (List.cons.inj hx).2).1
      simp [singleEscapes] at h
    · exact absurd (List.cons.inj (List.cons.inj hx).2).1 (by decide)
    · rcases ds with _ | ⟨e, ds⟩
      · exact absurd rfl hds
      · obtain rfl := (List.cons.inj (List.cons.inj hx).2).1
        exact absurd (hdig 117 List.mem_cons_self) (by decide)
    · exact absurd (List.cons.inj (List.cons.inj hx).2).1 (by decide)
    · have hbr' : br = [10] ∨ br = [13] ∨ br = [13, 10] ∨ br = [10, 13] := by simpa [lineBreaks] using hbr
      rcases hbr' with rfl | rfl | rfl | rfl
      all_goals exact absurd (List.cons.inj (List.cons.inj hx).2).1 (by decide)
    · have hdigits := (List.cons.inj (List.cons.inj (List.cons.inj hx).2).2).2
      rw [← digits_inj hhs hhs' hdigits] at hv'
      unfold luaRules at hv'
      dsimp only at hv'
      rw [if_neg (not_le.mpr hbig)] at hv'
      exact absurd hv' (by simp)

/-- The lexer reads one piece. -/
theorem piece_unique {d' r : List UInt8} (hbits : 4 ≤ bits) (h : Piece (codeRules bits) q s d s')
    (h' : Piece (codeRules bits) q s d' r) : d = d' ∧ s' = r := by
  obtain ⟨l, hl⟩ := step_of_piece 0 hbits h
  obtain ⟨l', hl'⟩ := step_of_piece 0 hbits h'
  rw [hl] at hl'
  obtain ⟨hd, hL⟩ := Prod.mk.inj (Except.ok.inj hl')
  exact ⟨hd, (Lex.mk.inj hL).1⟩

/-- A text without a liberty is a literal of Lua. -/
theorem decodes_of_not_slipped (hbits : 31 ≤ bits) (h : Decodes (codeRules bits) q s ds rest)
    (hn : ¬Slipped bits q s) : Decodes luaRules q s ds rest := by
  induction h with
  | close rest => exact Decodes.close rest
  | step s s' d ds rest h h' ih =>
    rcases piece_or_liberty hbits h with hlua | hlib
    · exact Decodes.step s s' d ds rest hlua (ih fun hs' => hn (Slipped.there s s' d h hs'))
    · exact absurd (Slipped.here s s' ds rest hlib h') hn

/-- A text with a liberty is a literal for the lexer and none for Lua. -/
theorem slipped_spec (hbits : 31 ≤ bits) (h : Slipped bits q s) :
    (∃ ds rest, Decodes (codeRules bits) q s ds rest) ∧ ∀ ds rest, ¬Decodes luaRules q s ds rest := by
  induction h with
  | here s s' ds rest h h' =>
    obtain ⟨d, hp⟩ := piece_of_liberty (q := q) h
    refine ⟨⟨_, _, Decodes.step s s' d ds rest hp h'⟩, fun ds' rest' hlua => ?_⟩
    rcases decodes_cases hlua with ⟨rfl, -⟩ | ⟨r, d', ds'', hp', -, -⟩
    · exact absurd rfl (piece_head hp).2
    · exact liberty_not_lua h hp'
  | there s s' d h h' ih =>
    obtain ⟨⟨ds, rest, hds⟩, hno⟩ := ih
    refine ⟨⟨_, _, Decodes.step s s' d ds rest h hds⟩, fun ds' rest' hlua => ?_⟩
    rcases decodes_cases hlua with ⟨rfl, -⟩ | ⟨r, d', ds'', hp', hds', -⟩
    · exact absurd rfl (piece_head h).2
    · have hcode : Piece (codeRules bits) q s d' r := piece_mono (fun _ => rfl) (codepoint_lua hbits) hp'
      obtain ⟨-, rfl⟩ := piece_unique (by omega) h hcode
      exact hno ds'' rest' hds'

/-- A liberty of a wide type is one of the others. -/
theorem slipped_wide (hbits : 35 ≤ bits) (hbits' : 31 ≤ bits') (h : Slipped bits q s) : Slipped bits' q s := by
  have hcp := codepoint_wide hbits hbits'
  induction h with
  | here s s' ds rest h h' =>
    refine Slipped.here s s' ds rest ?_ (decodes_mono (fun _ => rfl) hcp h')
    rcases h with ⟨s⟩ | ⟨hs, _, v, hne, hhs, hbig, hv⟩
    · exact Liberty.rawCR s'
    · exact Liberty.wrapped hs s' v hne hhs hbig (hcp hs v hv)
  | there s s' d h h' ih => exact Slipped.there s s' d (piece_mono (fun _ => rfl) hcp h) ih

/-! ## The width of the type -/

theorem readHex_wide {seen : Bool} {r : HexRun} (hbits : 35 ≤ bits) (hbits' : 31 ≤ bits')
    (hcp : cp ≤ 0x7FFFFFFF) (h : readHex bits s cp seen = some r) : readHex bits' s cp seen = some r := by
  have hpow : 2^35 ≤ 2^bits := Nat.pow_le_pow_right (by decide) hbits
  have hpow' : 2^31 ≤ 2^bits' := Nat.pow_le_pow_right (by decide) hbits'
  induction s generalizing cp seen with
  | nil => exact h
  | cons c s ih =>
    unfold readHex at h ⊢
    by_cases hc : isxdigit c = true
    · have hlt := (hexVal_eq c hc).1 ▸ (hexVal_eq c hc).2
      rw [if_pos hc] at h ⊢
      dsimp only at h ⊢
      rw [shift_or (by omega) hlt] at h ⊢
      rw [Nat.mod_eq_of_lt (by omega)] at h
      split_ifs at h with hbig
      rw [Nat.mod_eq_of_lt (by omega), if_neg hbig]
      exact ih (not_lt.mp hbig) h
    · rw [if_neg hc] at h ⊢
      exact h

theorem readEscape_wide (hbits : 35 ≤ bits) (hbits' : 31 ≤ bits')
    (h : readEscape bits s line = .ok r) : readEscape bits' s line = .ok r := by
  rcases s with _ | ⟨e, s⟩
  · exact absurd h (by unfold readEscape; simp)
  · by_cases hu : e = 117 ∧ s.head? = some 123
    · obtain ⟨rfl, hs⟩ := hu
      obtain ⟨s, rfl⟩ := List.head?_eq_some_iff.mp hs
      rw [readEscape_utf8] at h ⊢
      rcases hread : readHex bits s 0 false with _ | x
      · rw [hread] at h
        exact absurd h (by simp)
      · rw [hread] at h
        rw [readHex_wide hbits hbits' (Nat.zero_le _) hread]
        exact h
    · -- only the digits of `\u` depend on the width
      have hsame : readEscape bits (e :: s) line = readEscape bits' (e :: s) line := by
        unfold readEscape
        by_cases hu' : e = 117
        · have hs : s.head? ≠ some 123 := fun hs => hu ⟨hu', hs⟩
          simp only [if_pos hs]
        · simp only [if_neg hu']
      rw [← hsame]
      exact h

theorem stringStep_wide {L : Lex} (hbits : 35 ≤ bits) (hbits' : 31 ≤ bits')
    (h : stringStep bits L = .ok r) : stringStep bits' L = .ok r := by
  unfold stringStep at h ⊢
  rcases L with ⟨_ | ⟨c, s⟩, line⟩
  · exact h
  · dsimp only at h ⊢
    by_cases hesc : c = 92
    · obtain rfl := hesc
      exact readEscape_wide hbits hbits' h
    · rw [if_pos hesc] at h ⊢
      exact h

theorem decodeLoop_wide {bits' size fuel : ℕ} {L : Lex} {buf : List UInt8} (hbits : 35 ≤ bits)
    (hbits' : 31 ≤ bits') (h : decodeLoop bits c size fuel L buf = .ok r) :
    decodeLoop bits' c size fuel L buf = .ok r := by
  induction fuel generalizing L buf with
  | zero => exact h
  | succ fuel ih =>
    unfold decodeLoop at h ⊢
    by_cases hend : L.p.headD 0 = 0 ∨ L.p.headD 0 = c
    · rw [if_pos hend] at h ⊢
      exact h
    · rw [if_neg hend] at h ⊢
      rcases hstep : stringStep bits L with err | ⟨d, L'⟩
      · rw [hstep] at h
        exact absurd h (by simp)
      · rw [hstep] at h
        rw [stringStep_wide hbits hbits' hstep]
        dsimp only at h ⊢
        split_ifs at h with hsize
        rw [if_neg hsize]
        exact ih h

/-- What is read with a wide type is read with the others. -/
theorem readString_wide {L : Lex} (hbits : 35 ≤ bits) (hbits' : 31 ≤ bits')
    (h : readString bits c L = .ok r) : readString bits' c L = .ok r := by
  rw [readString_eq] at h ⊢
  obtain ⟨x, hloop, h⟩ := Fallible.except_bind_ok h
  rw [decodeLoop_wide hbits hbits' hloop]
  exact h

/-! ## Lua's literals -/

/-- A quoted literal is read as Lua's, for an `unsigned long` of so many bits: what is behind the quote is decoded by
its rules and accepted by no others, and the buffer is kept. -/
def ReadsLua (bits : ℕ) (q : Quote) (s : List UInt8) : Prop :=
  ∀ line, (∀ ds rest, (∃ line', readString bits q.byte ⟨q.byte :: s, line⟩ = .ok (ds, ⟨rest, line'⟩)) ↔
      Decodes luaRules q s ds rest) ∧
    ∀ err, readString bits q.byte ⟨q.byte :: s, line⟩ = .error err → ∃ l msg, err = .error l msg

/-- The two builds read the same. -/
def SameRead (bits bits' : ℕ) (q : Quote) (s : List UInt8) : Prop :=
  ∀ line r, readString bits q.byte ⟨q.byte :: s, line⟩ = .ok r ↔ readString bits' q.byte ⟨q.byte :: s, line⟩ = .ok r

theorem readsLua_iff (hbits : 31 ≤ bits) : ReadsLua bits q s ↔ ¬Slipped bits q s := by
  constructor
  · intro h hs
    obtain ⟨⟨ds, rest, hds⟩, hno⟩ := slipped_spec hbits hs
    obtain ⟨hcode, -⟩ := readString_spec (q := q) (s := s) 0 (show 4 ≤ bits by omega)
    exact hno ds rest (((h 0).1 ds rest).mp ((hcode ds rest).mpr hds))
  · intro hn line
    obtain ⟨hcode, hover, hstuck⟩ := readString_spec (q := q) (s := s) line (show 4 ≤ bits by omega)
    refine ⟨fun ds rest => (hcode ds rest).trans ⟨fun h => decodes_of_not_slipped hbits h hn, fun h => ?_⟩, ?_⟩
    · exact decodes_mono (fun _ => rfl) (codepoint_lua hbits) h
    · rintro (⟨l, msg⟩ | _ | _) herr
      · exact ⟨l, msg, rfl⟩
      · exact absurd herr hover
      · exact absurd herr hstuck

/-- Quoted literals are read as Lua's by both builds, and alike, exactly when the text is not one that is accepted for
a raw carriage return or a value that is reduced. -/
theorem readString_lua (q : Quote) (s : List UInt8) :
    (ReadsLua 64 q s ∧ ReadsLua 32 q s ∧ SameRead 64 32 q s) ↔ ¬Slipped 32 q s := by
  constructor
  · rintro ⟨-, h, -⟩
    exact (readsLua_iff (by decide)).mp h
  · intro h
    have hlua64 : ReadsLua 64 q s :=
      (readsLua_iff (by decide)).mpr fun h' => h (slipped_wide (by decide) (by decide) h')
    have hlua32 : ReadsLua 32 q s := (readsLua_iff (by decide)).mpr h
    refine ⟨hlua64, hlua32, fun line r => ⟨readString_wide (by decide) (by decide), fun hr => ?_⟩⟩
    obtain ⟨ds, rest, line'⟩ := r
    obtain ⟨line'', hr'⟩ := ((hlua64 line).1 ds rest).mpr (((hlua32 line).1 ds rest).mp ⟨line', hr⟩)
    have hsame : readString 32 q.byte ⟨q.byte :: s, line⟩ = .ok (ds, ⟨rest, line''⟩) :=
      readString_wide (by decide) (by decide) hr'
    rw [hr] at hsame
    obtain ⟨-, hL⟩ := ok_inj hsame
    obtain ⟨-, rfl⟩ := Lex.mk.inj hL
    exact hr'

/-- A raw carriage return is let pass, and 100000000 is a code point in 32 bits. -/
theorem readString_liberties : ¬ReadsLua 64 .double [13, 34] ∧
    ¬SameRead 64 32 .double [92, 117, 123, 49, 48, 48, 48, 48, 48, 48, 48, 48, 125, 34] := by
  constructor
  · intro h
    exact (readsLua_iff (by decide)).mp h (Slipped.here _ _ _ _ (Liberty.rawCR [34]) (Decodes.close []))
  · intro h
    have hread : readString 32 34 ⟨[34, 92, 117, 123, 49, 48, 48, 48, 48, 48, 48, 48, 48, 125, 34], 1⟩ =
      .ok ([0], ⟨[], 1⟩) := rfl
    have hwide := (h 1 ([0], ⟨[], 1⟩)).mpr hread
    exact absurd hwide (by
      show (Except.error _ : Except LexFault (List UInt8 × Lex)) ≠ _
      simp)

end

end Lua2wasm.Lexer
