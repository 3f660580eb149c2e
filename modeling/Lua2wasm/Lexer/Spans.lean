import Lua2wasm.Lexer.Brackets

/-!
# Where tokens stand

A pass of the lexer moves over a text: over a blank, or over the text of one token (`lexStep_passes`). So the tokens
of a source are parts of it in their order with blanks between them, and the line of each is counted by the newlines
before it, as long as there is no carriage return (`lex_located`).
-/

namespace Lua2wasm.Lexer

open Fallible (ok_inj)

section

variable {bits n line line' : ℕ} {c e : UInt8} {p s w w' rest : List UInt8} {L L' L'' : Lex} {b : Bool}
  {strtod : List UInt8 → F64}

/-! ## Moving over a text -/

/-- The lexer moved over a text, and counted its newlines. -/
structure Passes (L L' : Lex) (w : List UInt8) : Prop where
  text : L.p = w ++ L'.p
  line : 13 ∉ w → L'.line = L.line + w.count 10

theorem Passes.trans (h : Passes L L' w) (h' : Passes L' L'' w') : Passes L L'' (w ++ w') where
  text := by rw [h.text, h'.text, List.append_assoc]
  line := by
    intro hcr
    rw [List.mem_append, not_or] at hcr
    rw [h'.line hcr.2, h.line hcr.1, List.count_append, Nat.add_assoc]

/-- Characters that are no newlines are counted as none. -/
theorem count_plain (h : ∀ c ∈ w, c ≠ 10) : w.count 10 = 0 :=
  List.count_eq_zero.mpr fun hmem => h 10 hmem rfl

theorem Passes.plain (hp : L.p = w ++ p) (h : ∀ c ∈ w, c ≠ 10) : Passes L { L with p := p } w where
  text := hp
  line := fun _ => by rw [count_plain h, Nat.add_zero]

/-- The end of a text without newlines. -/
def Behind (p rest : List UInt8) : Prop := ∃ w, p = w ++ rest ∧ ∀ c ∈ w, c ≠ 10

theorem Behind.refl (p : List UInt8) : Behind p p := ⟨[], rfl, by simp⟩

theorem Behind.trans {q : List UInt8} (h : Behind p q) (h' : Behind q rest) : Behind p rest := by
  obtain ⟨w, rfl, hw⟩ := h
  obtain ⟨w', rfl, hw'⟩ := h'
  refine ⟨w ++ w', by rw [List.append_assoc], fun c hc => ?_⟩
  exact (List.mem_append.mp hc).elim (hw c) (hw' c)

/-- The character at the front is no newline. -/
theorem Behind.tail (h : p.headD 0 ≠ 10) : Behind p p.tail := by
  rcases p with _ | ⟨c, p⟩
  · exact Behind.refl []
  · exact ⟨[c], rfl, by simpa using h⟩

theorem Behind.dropWhile {f : UInt8 → Bool} (h : f 10 = false) : Behind p (p.dropWhile f) := by
  refine ⟨p.takeWhile f, List.takeWhile_append_dropWhile.symm, fun c hc => ?_⟩
  rintro rfl
  rw [List.mem_takeWhile_imp hc] at h
  exact absurd h (by decide)

theorem Behind.length_le (h : Behind p rest) : rest.length ≤ p.length := by
  obtain ⟨w, rfl, -⟩ := h
  rw [List.length_append]
  exact Nat.le_add_left _ _

theorem head_ne (h : p.headD 0 = c) (hc : c ≠ 10) : p.headD 0 ≠ 10 := by
  rwa [h]

/-! ## Numerals -/

theorem skipFraction_behind {digit : UInt8 → Bool} (h : digit 10 = false) : Behind p (skipFraction digit p).2 := by
  unfold skipFraction
  split_ifs with hdot
  · exact (Behind.tail (head_ne hdot (by decide))).trans (Behind.dropWhile h)
  · exact Behind.refl p

theorem skipExponent_behind {lower upper : UInt8} (hl : lower ≠ 10) (hu : upper ≠ 10) :
    Behind p (skipExponent lower upper p).2 := by
  unfold skipExponent
  by_cases hletter : p.headD 0 = lower ∨ p.headD 0 = upper
  · have hfirst := Behind.tail (hletter.elim (fun h => head_ne h hl) fun h => head_ne h hu)
    rw [if_pos hletter]
    dsimp only
    by_cases hsign : p.tail.headD 0 = 43 ∨ p.tail.headD 0 = 45
    · have hsecond := Behind.tail (hsign.elim (fun h => head_ne h (by decide)) fun h => head_ne h (by decide))
      rw [if_pos hsign]
      exact (hfirst.trans hsecond).trans (Behind.dropWhile (by decide))
    · rw [if_neg hsign]
      exact hfirst.trans (Behind.dropWhile (by decide))
  · rw [if_neg hletter]
    exact Behind.refl p

theorem digit_ne_newline (h : isdigit c = true) : c ≠ 10 := by
  rintro rfl
  exact absurd h (by decide)

/-- A numeral takes its first digit at least. -/
theorem scanNumber_behind (h : isdigit (p.headD 0) = true) : Behind p.tail (scanNumber p).rest := by
  rcases p with _ | ⟨c, p⟩
  · exact absurd h (by decide)
  · rw [List.headD_cons] at h
    unfold scanNumber
    split_ifs with hhex
    · have hx : (c :: p).getD 1 0 ≠ 10 := by rcases hhex.2 with hx | hx <;> rw [hx] <;> decide
      have htail : Behind p p.tail := Behind.tail (by
        rcases p with _ | ⟨d, p⟩
        · decide
        · exact hx)
      rw [List.drop_succ_cons, List.drop_one]
      exact ((htail.trans (Behind.dropWhile (by decide))).trans (skipFraction_behind (by decide))).trans
        (skipExponent_behind (by decide) (by decide))
    · rw [List.dropWhile_cons, if_pos h]
      exact ((Behind.dropWhile (by decide)).trans (skipFraction_behind (by decide))).trans
        (skipExponent_behind (by decide) (by decide))

theorem scanDot_behind (p : List UInt8) : Behind p.tail (scanDot p) :=
  (Behind.dropWhile (by decide)).trans (skipExponent_behind (by decide) (by decide))

/-! ## Quoted strings -/

theorem skipSpace_line (s : List UInt8) (line : ℕ) :
    ∃ ws, s = ws ++ (skipSpace s line).1 ∧ (skipSpace s line).2 = line + ws.count 10 := by
  induction s generalizing line with
  | nil => exact ⟨[], rfl, rfl⟩
  | cons c s ih =>
    unfold skipSpace
    by_cases hc : isspace c = true
    · obtain ⟨ws, hs, hline⟩ := ih (if c = 10 then line + 1 else line)
      rw [if_pos hc]
      refine ⟨c :: ws, by rw [List.cons_append, ← hs], ?_⟩
      rw [hline, List.count_cons]
      by_cases hnl : c = 10
      · rw [if_pos hnl, if_pos (by simpa using hnl), Nat.add_right_comm, Nat.add_assoc]
      · rw [if_neg hnl, if_neg (by simpa using hnl), Nat.add_zero]
    · rw [if_neg hc]
      exact ⟨[], rfl, rfl⟩

theorem readHex_behind {cp : ℕ} {r : HexRun} (h : readHex bits s cp b = some r) : Behind s r.rest := by
  induction s generalizing cp b with
  | nil =>
    obtain rfl := Option.some_inj.mp h
    exact Behind.refl []
  | cons c s ih =>
    unfold readHex at h
    dsimp only at h
    split_ifs at h with hc
    · have hne : c ≠ 10 := by
        rintro rfl
        exact absurd hc (by decide)
      exact (Behind.tail (p := c :: s) hne).trans (ih h)
    · obtain rfl := Option.some_inj.mp h
      exact Behind.refl _

theorem readDec_behind (n v : ℕ) (s : List UInt8) : Behind s (readDec n s v).2 := by
  obtain ⟨ds, hs, -, hds, -, -⟩ := (readDec_iff n s v).mp (Prod.eta (readDec n s v)).symm
  exact ⟨ds, hs, fun c hc => digit_ne_newline (hds c hc)⟩

/-- An escape is passed over, with the newlines in it. -/
theorem readEscape_passes {d : List UInt8} (h : readEscape bits s line = .ok (d, L')) :
    ∃ w, Passes ⟨s, line⟩ L' w := by
  have hbehind : ∀ rest, Behind s rest → L' = ⟨rest, line⟩ → ∃ w, Passes ⟨s, line⟩ L' w := by
    rintro rest ⟨w, rfl, hw⟩ rfl
    exact ⟨w, Passes.plain rfl hw⟩
  rcases s with _ | ⟨e, s⟩
  · exact absurd h (by unfold readEscape; simp)
  by_cases hbr : e = 10 ∨ e = 13
  · rw [readEscape_break hbr] at h
    obtain ⟨-, rfl⟩ := ok_inj h
    by_cases hpair : (e = 13 ∧ s.head? = some 10) ∨ (e = 10 ∧ s.head? = some 13)
    · -- one of the two characters is a carriage return
      rw [if_pos hpair]
      rcases hpair with ⟨rfl, hs⟩ | ⟨rfl, hs⟩
      · obtain ⟨s, rfl⟩ := List.head?_eq_some_iff.mp hs
        exact ⟨[13, 10], ⟨rfl, fun hcr => absurd (by simp) hcr⟩⟩
      · obtain ⟨s, rfl⟩ := List.head?_eq_some_iff.mp hs
        exact ⟨[10, 13], ⟨rfl, fun hcr => absurd (by simp) hcr⟩⟩
    · rw [if_neg hpair]
      refine ⟨[e], ⟨rfl, fun hcr => ?_⟩⟩
      rcases hbr with rfl | rfl
      · rfl
      · exact absurd (by simp) hcr
  · have htail : Behind (e :: s) s := Behind.tail (p := e :: s) (not_or.mp hbr).1
    unfold readEscape at h
    dsimp only at h
    rw [if_neg hbr] at h
    split at h
    · obtain ⟨-, rfl⟩ := ok_inj h
      exact hbehind s htail rfl
    -- a simple escape is one byte; the others are by their kind
    · split_ifs at h with hx hz hu hopen hd hbig
      · split at h
        · rename_i a b r
          split_ifs at h with hab
          obtain ⟨-, rfl⟩ := ok_inj h
          have hne : ∀ x : UInt8, isxdigit x = true → x ≠ 10 := by
            rintro x hx rfl
            exact absurd hx (by decide)
          obtain ⟨ha, hb⟩ := Bool.and_eq_true_iff.mp hab
          exact hbehind r (htail.trans ⟨[a, b], rfl, by simpa using ⟨hne a ha, hne b hb⟩⟩) rfl
        · exact absurd h (by simp)
      · obtain ⟨-, rfl⟩ := ok_inj h
        obtain ⟨ws, hs, hline⟩ := skipSpace_line s line
        refine ⟨e :: ws, ⟨by rw [List.cons_append, ← hs], fun _ => ?_⟩⟩
        rw [hline, List.count_cons_of_ne (not_or.mp hbr).1]
      · split at h
        · exact absurd h (by simp)
        · rename_i r hread
          split_ifs at h with hbad
          obtain ⟨-, rfl⟩ := ok_inj h
          have hs : s.headD 0 = 123 := by
            rw [List.headD_eq_head?_getD, not_not.mp hopen, Option.getD_some]
          have hr : r.rest.headD 0 = 125 := by
            rw [Bool.or_eq_true, not_or, decide_eq_true_iff, not_not] at hbad
            rw [List.headD_eq_head?_getD, hbad.2, Option.getD_some]
          have hdigits := (Behind.tail (head_ne hs (by decide))).trans (readHex_behind hread)
          exact hbehind _ ((htail.trans hdigits).trans (Behind.tail (head_ne hr (by decide)))) rfl
      · obtain ⟨-, rfl⟩ := ok_inj h
        exact hbehind _ (readDec_behind 3 0 (e :: s)) rfl

theorem stringStep_passes {d : List UInt8} (h : stringStep bits L = .ok (d, L')) : ∃ w, Passes L L' w := by
  obtain ⟨p, line⟩ := L
  unfold stringStep at h
  dsimp only at h
  split at h
  · obtain ⟨-, rfl⟩ := ok_inj h
    exact ⟨[], Passes.plain rfl (by simp)⟩
  · rename_i c s
    split_ifs at h with hnl hesc
    · obtain ⟨-, rfl⟩ := ok_inj h
      exact ⟨[c], Passes.plain rfl (by simpa using hnl)⟩
    · obtain rfl := not_not.mp hesc
      obtain ⟨w, hw⟩ := readEscape_passes h
      exact ⟨_, Passes.trans (Passes.plain (L := ⟨92 :: s, line⟩) (w := [92]) rfl (by simp)) hw⟩

theorem decodeLoop_passes {q : UInt8} {size fuel : ℕ} {buf out : List UInt8}
    (h : decodeLoop bits q size fuel L buf = .ok (out, L')) : ∃ w, Passes L L' w := by
  induction fuel generalizing L buf with
  | zero => exact absurd h (by unfold decodeLoop; simp)
  | succ fuel ih =>
    unfold decodeLoop at h
    split_ifs at h with hend
    · obtain ⟨-, rfl⟩ := ok_inj h
      exact ⟨[], Passes.plain rfl (by simp)⟩
    · split at h
      · exact absurd h (by simp)
      · rename_i hstep
        split_ifs at h with hsize
        obtain ⟨w, hw⟩ := stringStep_passes hstep
        obtain ⟨w', hw'⟩ := ih h
        exact ⟨w ++ w', hw.trans hw'⟩

/-- A quoted string is passed over, its opening quote at least. -/
theorem readString_passes {q : Quote} {out : List UInt8} (hq : L.p.headD 0 = q.byte)
    (h : readString bits q.byte L = .ok (out, L')) : ∃ w, w ≠ [] ∧ Passes L L' w := by
  have hne : q.byte ≠ 10 := by cases q <;> decide
  rw [readString_eq] at h
  obtain ⟨⟨buf, L₁⟩, hloop, h⟩ := Fallible.except_bind_ok h
  by_cases hend : L₁.p.headD 0 = q.byte
  · rw [if_neg (not_not.mpr hend)] at h
    obtain ⟨-, rfl⟩ := ok_inj h
    obtain ⟨w, hw⟩ := decodeLoop_passes hloop
    obtain ⟨p, line⟩ := L
    rcases p with _ | ⟨c, p⟩
    · exact absurd hq.symm quote_ne_zero
    · obtain ⟨w', hp', hw'⟩ := Behind.tail (p := L₁.p) (head_ne hend hne)
      have hc : c ≠ 10 := by
        rw [List.headD_cons] at hq
        rwa [hq]
      have hopen : Passes ⟨c :: p, line⟩ ⟨p, line⟩ [c] := Passes.plain rfl (by simpa using hc)
      exact ⟨_, by simp, (hopen.trans hw).trans (Passes.plain hp' hw')⟩
  · rw [if_pos hend] at h
    exact absurd h (by simp)

/-! ## One pass of the lexer -/

/-- Where the token of a pass stands. -/
def AtFront (L : Lex) (w : List UInt8) (t : Token) : Prop := t.start = L.p ∧ t.line = L.line ∧ t.len = w.length

theorem length_behind (h : p = w ++ rest) : p.length - rest.length = w.length := by
  rw [h, List.length_append, Nat.add_sub_cancel]

theorem takeWhile_passes (L : Lex) : Passes L { L with p := L.p.dropWhile inName } (L.p.takeWhile inName) := by
  refine Passes.plain List.takeWhile_append_dropWhile.symm fun c hc => ?_
  rintro rfl
  exact absurd (List.mem_takeWhile_imp hc) (by decide)

/-- An opening bracket is passed over, with a newline behind it. -/
theorem openLong_passes (h : tryOpenLongBracket L = some (n, L')) :
    ∃ nl, (nl = [] ∨ nl = [10]) ∧ Passes L L' (longOpen n ++ nl) := by
  obtain ⟨p, line⟩ := L
  obtain ⟨m, q, rfl⟩ : ∃ m, longOpen m <+: p := by
    by_contra hno
    rw [tryOpenLongBracket_none.mpr (fun m hm => hno ⟨m, hm⟩)] at h
    exact absurd h (by simp)
  have hplain : ∀ c ∈ longOpen m, c ≠ 10 := by
    unfold longOpen
    intro c hc
    rw [List.mem_cons, List.mem_append, List.mem_replicate, List.mem_singleton] at hc
    rcases hc with rfl | ⟨-, rfl⟩ | rfl <;> decide
  have hbracket : Passes ⟨longOpen m ++ q, line⟩ ⟨q, line⟩ (longOpen m) := Passes.plain rfl hplain
  rw [tryOpenLongBracket_open] at h
  obtain ⟨rfl, rfl⟩ := Prod.mk.inj (Option.some_inj.mp h)
  split_ifs with hnl
  · rcases q with _ | ⟨c, q⟩
    · exact absurd hnl (by decide)
    · obtain rfl : c = 10 := hnl
      have hbreak : Passes ⟨10 :: q, line⟩ ⟨q, line + 1⟩ [10] := ⟨rfl, fun _ => rfl⟩
      exact ⟨[10], Or.inr rfl, hbracket.trans hbreak⟩
  · exact ⟨[], Or.inl rfl, by rwa [List.append_nil]⟩

theorem readLongBody_passes {body : List UInt8} (h : readLongBody n L.p L.line = some (body, L')) :
    Passes L L' (body ++ longClose n) := by
  obtain ⟨-, hp, hline⟩ := readLongBody_iff.mp h
  have hclose : (longClose n).count 10 = 0 := by
    refine count_plain fun c hc => ?_
    unfold longClose at hc
    rw [List.mem_cons, List.mem_append, List.mem_replicate, List.mem_singleton] at hc
    rcases hc with rfl | ⟨-, rfl⟩ | rfl <;> decide
  exact ⟨hp, fun _ => by rw [hline, List.count_append, hclose, Nat.add_zero]⟩

/-- A line ends with a newline or with the text. -/
theorem lineEnd_head (s : List UInt8) : (s.dropWhile fun c => c ≠ 0 && c ≠ 10).headD 0 = 0 ∨
    (s.dropWhile fun c => c ≠ 0 && c ≠ 10).headD 0 = 10 := by
  induction s with
  | nil => exact Or.inl rfl
  | cons c s ih =>
    rw [List.dropWhile_cons]
    split_ifs with hc
    · exact ih
    · rw [Bool.and_eq_true, decide_eq_true_iff, decide_eq_true_iff, not_and_or, not_not, not_not] at hc
      exact hc

/-- A comment is a blank, and is passed over. -/
theorem skipComment_passes (hdash : L.p.headD 0 = 45 ∧ L.p.getD 1 0 = 45) (h : skipComment L = .ok L') :
    ∃ w, w ≠ [] ∧ Passes L L' w ∧ Blank w L'.p := by
  obtain ⟨p, line⟩ := L
  obtain ⟨s, rfl⟩ : ∃ s, p = 45 :: 45 :: s := by
    dsimp only at hdash
    rcases p with _ | ⟨c, _ | ⟨d, s⟩⟩
    · exact absurd hdash.1 (by decide)
    · exact absurd hdash.2 (by simp)
    · obtain ⟨rfl, rfl⟩ : c = 45 ∧ d = 45 := hdash
      exact ⟨s, rfl⟩
  have hstart : Passes ⟨45 :: 45 :: s, line⟩ ⟨s, line⟩ [45, 45] := Passes.plain rfl (by simp)
  unfold skipComment at h
  rw [show (45 :: 45 :: s).drop 2 = s from rfl] at h
  dsimp only at h
  rcases hopen : tryOpenLongBracket ⟨s, line⟩ with _ | ⟨m, L₁⟩
  · rw [hopen] at h
    obtain rfl := Except.ok.inj h
    have hsplit : s = s.takeWhile (fun c => c ≠ 0 && c ≠ 10) ++ s.dropWhile fun c => c ≠ 0 && c ≠ 10 :=
      List.takeWhile_append_dropWhile.symm
    have hs : ∀ c ∈ s.takeWhile (fun c => c ≠ 0 && c ≠ 10), c ≠ 0 ∧ c ≠ 10 := fun c hc => by
      simpa using List.mem_takeWhile_imp hc
    have hpass : Passes ⟨s, line⟩ _ _ := Passes.plain hsplit fun c hc => (hs c hc).2
    refine ⟨_, by simp, hstart.trans hpass, Blank.line _ _ hs (fun m hm => ?_) ?_⟩
    · exact tryOpenLongBracket_none.mp hopen m (hm.trans (List.takeWhile_prefix _))
    · exact lineEnd_head s
  · rw [hopen] at h
    dsimp only at h
    rcases hbody : readLongBody m L₁.p L₁.line with _ | ⟨body, L₂⟩
    · rw [hbody] at h
      exact absurd h (by simp)
    · rw [hbody] at h
      obtain rfl := Except.ok.inj h
      obtain ⟨nl, hnl, hw⟩ := openLong_passes hopen
      have hlong : LongBody m (nl ++ body) := by
        have hbody := (readLongBody_iff.mp hbody).1
        rcases hnl with rfl | rfl
        · exact hbody
        · -- a newline begins no closing bracket
          exact longBody_cons.mpr ⟨by decide, fun h => absurd (List.cons_prefix_cons.mp h).1 (by decide), hbody⟩
      refine ⟨_, by simp, hstart.trans (hw.trans (readLongBody_passes hbody)), ?_⟩
      have hblank := Blank.long m (nl ++ body) L₂.p hlong
      simp only [List.append_assoc] at hblank ⊢
      exact hblank

/-- The characters at the front are those that were looked at. -/
theorem front_eq {u : List UInt8} (hu : ∀ c ∈ u, c ≠ 0) (h : ∀ k : ℕ, k < u.length → p.getD k 0 = u.getD k 0) :
    ∃ r, p = u ++ r := by
  induction u generalizing p with
  | nil => exact ⟨p, rfl⟩
  | cons c u ih =>
    have hc := h 0 (by simp)
    rcases p with _ | ⟨d, p⟩
    · exact absurd hc.symm (hu c List.mem_cons_self)
    · obtain rfl : d = c := hc
      obtain ⟨r, rfl⟩ := ih (p := p) (fun x hx => hu x (List.mem_cons_of_mem _ hx)) fun k hk => by
        simpa using h (k + 1) (by simpa using hk)
      exact ⟨r, rfl⟩

/-- Punctuation is passed over. -/
theorem punctuation_passes {kind : TokKind} (h : punctuation L.p = some (kind, n)) :
    ∃ w, w ≠ [] ∧ w.length = n ∧ Passes L { L with p := L.p.drop n } w := by
  have hfront : ∀ u : List UInt8, u ≠ [] → (∀ c ∈ u, c ≠ 0 ∧ c ≠ 10) → u.length = n →
      (∀ k : ℕ, k < u.length → L.p.getD k 0 = u.getD k 0) →
      ∃ w, w ≠ [] ∧ w.length = n ∧ Passes L { L with p := L.p.drop n } w := by
    intro u hne hu hlen hget
    obtain ⟨r, hr⟩ := front_eq (fun c hc => (hu c hc).1) hget
    refine ⟨u, hne, hlen, Passes.plain ?_ fun c hc => (hu c hc).2⟩
    rw [hr, List.drop_left' hlen]
  unfold punctuation at h
  split_ifs at h with hdots
  · obtain ⟨-, rfl⟩ := Prod.mk.inj (Option.some_inj.mp h)
    refine hfront [46, 46, 46] (by simp) (by simp) rfl fun k hk => ?_
    rw [List.headD_eq_head?_getD, List.head?_eq_getElem?, ← List.getD_eq_getElem?_getD] at hdots
    rcases k with _ | _ | _ | k
    · exact hdots.1
    · exact hdots.2.1
    · exact hdots.2.2
    · exact absurd hk (by simp)
  · split at h
    · rename_i x hfind
      obtain ⟨-, rfl⟩ := Prod.mk.inj (Option.some_inj.mp h)
      have hx : x.1 = (L.p.headD 0, L.p.getD 1 0) := by simpa using List.find?_some hfind
      have hmem := List.mem_of_find?_eq_some hfind
      have htwo := (by simp [twos] : ∀ x ∈ twos, (x.1.1 ≠ 0 ∧ x.1.1 ≠ 10) ∧ x.1.2 ≠ 0 ∧ x.1.2 ≠ 10) x hmem
      rw [hx, List.headD_eq_head?_getD, List.head?_eq_getElem?, ← List.getD_eq_getElem?_getD] at htwo
      refine hfront [L.p.getD 0 0, L.p.getD 1 0] (by simp) (by simpa using htwo) rfl fun k hk => ?_
      rcases k with _ | _ | k
      · rfl
      · rfl
      · exact absurd hk (by simp)
    · rw [Option.map_eq_some_iff] at h
      obtain ⟨x, hfind, h⟩ := h
      obtain ⟨-, rfl⟩ := Prod.mk.inj h
      have hx : x.1 = L.p.headD 0 := by simpa using List.find?_some hfind
      have hone := (by simp [ones] : ∀ x ∈ ones, x.1 ≠ 0 ∧ x.1 ≠ 10) x (List.mem_of_find?_eq_some hfind)
      rw [hx, List.headD_eq_head?_getD, List.head?_eq_getElem?, ← List.getD_eq_getElem?_getD] at hone
      refine hfront [L.p.getD 0 0] (by simp) (by simpa using hone) rfl fun k hk => ?_
      rcases k with _ | k
      · rfl
      · exact absurd hk (by simp)

/-- A pass of the lexer is over a blank or over the text of the token that it gives. -/
theorem lexStep_passes {t : Option Token} (h0 : L.p.headD 0 ≠ 0) (h : lexStep bits strtod L = .ok (t, L')) :
    ∃ w, w ≠ [] ∧ Passes L L' w ∧ (t = none → Blank w L'.p) ∧ ∀ u ∈ t, AtFront L w u := by
  obtain ⟨p, line⟩ := L
  obtain ⟨c, s, rfl⟩ : ∃ c s, p = c :: s := by
    rcases p with _ | ⟨c, s⟩
    · exact absurd rfl h0
    · exact ⟨c, s, rfl⟩
  have htext : ∀ {w : List UInt8} {L' : Lex}, Passes ⟨c :: s, line⟩ L' w →
      (c :: s).length - L'.p.length = w.length := fun hw => length_behind hw.text
  unfold lexStep at h
  dsimp only [List.headD_cons, List.tail_cons] at h
  -- one case for each kind of first byte, in the order of the code
  split_ifs at h with hnl hspace hdash hdigit hname hquote hdot
  · obtain ⟨rfl, rfl⟩ := ok_inj h
    obtain rfl := hnl
    exact ⟨[10], by simp, ⟨rfl, fun _ => rfl⟩, fun _ => Blank.space 10 s (by decide), by simp⟩
  · obtain ⟨rfl, rfl⟩ := ok_inj h
    exact ⟨[c], by simp, Passes.plain rfl (by simpa using hnl), fun _ => Blank.space c s hspace, by simp⟩
  · obtain ⟨L₁, hcomment, h⟩ := Fallible.map_ok h
    obtain ⟨rfl, rfl⟩ := Prod.mk.inj h
    obtain ⟨w, hne, hw, hblank⟩ := skipComment_passes (L := ⟨c :: s, line⟩) hdash hcomment
    exact ⟨w, hne, hw, fun _ => hblank, by simp⟩
  · obtain ⟨rfl, rfl⟩ := ok_inj h
    obtain ⟨w, hp, hw⟩ := (Behind.tail (p := c :: s) hnl).trans (scanNumber_behind (p := c :: s) hdigit)
    have hpass : Passes ⟨c :: s, line⟩ ⟨(scanNumber (c :: s)).rest, line⟩ w := Passes.plain hp hw
    refine ⟨w, ?_, hpass, by simp, ?_⟩
    · rintro rfl
      have := (scanNumber_behind (p := c :: s) hdigit).length_le
      rw [← List.nil_append (scanNumber (c :: s)).rest, ← hp] at this
      exact absurd this (by simp)
    · rintro u ⟨⟩
      unfold numberToken
      dsimp only
      split_ifs <;> exact ⟨rfl, rfl, htext hpass⟩
  · obtain ⟨rfl, rfl⟩ := ok_inj h
    refine ⟨_, ?_, takeWhile_passes ⟨c :: s, line⟩, by simp, ?_⟩
    · have hin : inName c = true := by
        unfold startsName at hname
        unfold inName
        rcases Bool.or_eq_true_iff.mp hname with h | h <;> simp [h]
      rw [List.takeWhile_cons, if_pos hin]
      exact List.cons_ne_nil _ _
    · rintro u ⟨⟩
      exact ⟨rfl, rfl, rfl⟩
  · obtain ⟨r, hread, h⟩ := Fallible.map_ok h
    obtain ⟨rfl, rfl⟩ := Prod.mk.inj h
    obtain ⟨q, rfl⟩ : ∃ q : Quote, c = q.byte := by
      rcases hquote with rfl | rfl
      · exact ⟨.double, rfl⟩
      · exact ⟨.single, rfl⟩
    obtain ⟨w, hne, hw⟩ := readString_passes (L := ⟨q.byte :: s, line⟩) rfl hread
    refine ⟨w, hne, hw, by simp, ?_⟩
    rintro u ⟨⟩
    exact ⟨rfl, rfl, htext hw⟩
  · obtain ⟨rfl, rfl⟩ := ok_inj h
    obtain ⟨w, hp, hw⟩ := (Behind.tail (p := c :: s) hnl).trans (scanDot_behind (c :: s))
    have hpass : Passes ⟨c :: s, line⟩ ⟨scanDot (c :: s), line⟩ w := Passes.plain hp hw
    refine ⟨w, ?_, hpass, by simp, ?_⟩
    · rintro rfl
      have := (scanDot_behind (c :: s)).length_le
      rw [← List.nil_append (scanDot (c :: s)), ← hp] at this
      exact absurd this (by simp)
    · rintro u ⟨⟩
      exact ⟨rfl, rfl, htext hpass⟩
  · unfold lexPunctuation at h
    rcases hopen : tryOpenLongBracket ⟨c :: s, line⟩ with _ | ⟨m, L₁⟩
    · rw [hopen] at h
      rcases hpunct : punctuation (c :: s) with _ | ⟨kind, n⟩
      · rw [hpunct] at h
        exact absurd h (by simp)
      · rw [hpunct] at h
        obtain ⟨rfl, rfl⟩ := ok_inj h
        obtain ⟨w, hne, hlen, hw⟩ := punctuation_passes (L := ⟨c :: s, line⟩) hpunct
        refine ⟨w, hne, hw, by simp, ?_⟩
        rintro u ⟨⟩
        exact ⟨rfl, rfl, hlen.symm⟩
    · rw [hopen] at h
      dsimp only at h
      rcases hbody : readLongBody m L₁.p L₁.line with _ | ⟨body, L₂⟩
      · rw [hbody] at h
        exact absurd h (by simp)
      · rw [hbody] at h
        obtain ⟨rfl, rfl⟩ := ok_inj h
        obtain ⟨nl, -, hw⟩ := openLong_passes hopen
        have hpass := hw.trans (readLongBody_passes hbody)
        refine ⟨_, by simp [longOpen], hpass, by simp, ?_⟩
        rintro u ⟨⟩
        exact ⟨rfl, rfl, htext hpass⟩

/-- A pass ends with nothing worse than an error. -/
theorem lexStep_error {err : LexFault} (hbits : 4 ≤ bits) (h : lexStep bits strtod L = .error err) :
    ∃ line msg, err = .error line msg := by
  unfold lexStep at h
  dsimp only at h
  split_ifs at h with hnl hspace hdash hdigit hname hquote hdot
  · unfold skipComment at h
    dsimp only at h
    split at h
    · split at h
      · exact absurd h (by simp [Except.map])
      · exact ⟨_, _, (Except.error.inj h).symm⟩
    · exact absurd h (by simp [Except.map])
  · obtain ⟨p, line⟩ := L
    obtain ⟨q, s, rfl⟩ : ∃ q : Quote, ∃ s, p = q.byte :: s := by
      rcases p with _ | ⟨c, s⟩
      · exact absurd hquote (by simp)
      · rcases hquote with hc | hc
        · obtain rfl : c = 34 := hc
          exact ⟨.double, s, rfl⟩
        · obtain rfl : c = 39 := hc
          exact ⟨.single, s, rfl⟩
    obtain ⟨-, hover, hstuck⟩ := readString_spec (q := q) (s := s) line hbits
    rw [List.headD_cons] at h
    rcases hread : readString bits q.byte ⟨q.byte :: s, line⟩ with (⟨l, msg⟩ | _ | _) | r
    · rw [hread] at h
      exact ⟨l, msg, (Except.error.inj h).symm⟩
    · exact absurd hread hover
    · exact absurd hread hstuck
    · rw [hread] at h
      exact absurd h (by simp [Except.map])
  · unfold lexPunctuation at h
    split at h
    · split at h
      · exact absurd h (by simp)
      · exact ⟨_, _, (Except.error.inj h).symm⟩
    · split at h
      · exact absurd h (by simp)
      · exact ⟨_, _, (Except.error.inj h).symm⟩

/-! ## The whole run -/

/-- Blanks, one behind the other, up to a text. -/
inductive Gap : List UInt8 → List UInt8 → Prop
  | none (p : List UInt8) : Gap p p
  | blank (w p rest : List UInt8) (h : Blank w p) (h' : Gap p rest) : Gap (w ++ p) rest

/-- The tokens of a text: blanks, a token and so on, up to the end of the text. -/
inductive Tiles : List UInt8 → List Token → Prop
  | eof (p : List UInt8) (t : Token) (hgap : Gap p t.start) (hkind : t.kind = .eof) (hend : t.start.headD 0 = 0) :
    Tiles p [t]
  | token (p rest : List UInt8) (t : Token) (ts : List Token) (hgap : Gap p t.start) (hne : t.text ≠ [])
    (htext : t.start = t.text ++ rest) (hrest : Tiles rest ts) : Tiles p (t :: ts)

/-- A token stands in the source, on the line of its place. -/
def Located (source : List UInt8) (t : Token) : Prop :=
  ∃ before, source = before ++ t.start ∧ (13 ∉ before → t.line = 1 + before.count 10)

/-- The tokens stand where they do in a text that is behind another one. -/
def Rooted (L : Lex) (ts : List Token) : Prop :=
  Tiles L.p ts ∧ ∀ t ∈ ts, ∃ w, L.p = w ++ t.start ∧ (13 ∉ w → t.line = L.line + w.count 10)

theorem Tiles.blank {ts : List Token} (hblank : Blank w p) (h : Tiles p ts) : Tiles (w ++ p) ts := by
  rcases h with ⟨_, t, hgap, hkind, hend⟩ | ⟨_, rest, t, ts, hgap, hne, htext, hrest⟩
  · exact Tiles.eof _ t (Gap.blank w p _ hblank hgap) hkind hend
  · exact Tiles.token _ rest t ts (Gap.blank w p _ hblank hgap) hne htext hrest

/-- What is behind a passed text is behind the whole. -/
theorem Rooted.behind {ts : List Token} (hw : Passes L L' w) (h : Rooted L' ts) :
    ∀ t ∈ ts, ∃ w, L.p = w ++ t.start ∧ (13 ∉ w → t.line = L.line + w.count 10) := by
  intro t ht
  obtain ⟨w', hp, hline⟩ := h.2 t ht
  have hpass : Passes L ⟨t.start, t.line⟩ (w ++ w') := hw.trans ⟨hp, hline⟩
  exact ⟨w ++ w', hpass.text, hpass.line⟩

/-- The loop with enough fuel. Each pass leaves less text. -/
theorem lexLoop_rooted (hbits : 4 ≤ bits) {fuel : ℕ} (hfuel : L.p.length < fuel) :
    (∃ line msg, lexLoop bits strtod fuel L = .error (.error line msg)) ∨
      ∃ ts, lexLoop bits strtod fuel L = .ok ts ∧ Rooted L ts := by
  induction fuel generalizing L with
  | zero => exact absurd hfuel (Nat.not_lt_zero _)
  | succ fuel ih =>
    unfold lexLoop
    by_cases h0 : L.p.headD 0 = 0
    · rw [if_pos h0]
      refine Or.inr ⟨_, rfl, Tiles.eof _ _ (Gap.none _) rfl h0, fun t ht => ?_⟩
      obtain rfl := List.mem_singleton.mp ht
      exact ⟨[], rfl, fun _ => rfl⟩
    · rw [if_neg h0]
      rcases hstep : lexStep bits strtod L with err | ⟨t, L'⟩
      · obtain ⟨line, msg, rfl⟩ := lexStep_error hbits hstep
        exact Or.inl ⟨line, msg, rfl⟩
      · obtain ⟨w, hne, hw, hblank, htoken⟩ := lexStep_passes h0 hstep
        have hless : L'.p.length < fuel := by
          have hlen := congrArg List.length hw.text
          rw [List.length_append] at hlen
          have := List.length_pos_of_ne_nil hne
          omega
        rcases ih hless with ⟨line, msg, hrest⟩ | ⟨ts, hrest, hroot⟩
        · refine Or.inl ⟨line, msg, ?_⟩
          change (lexLoop bits strtod fuel L' >>= _) = _
          rw [hrest]
          rfl
        · refine Or.inr ⟨t.toList ++ ts, ?_, ?_⟩
          · change (lexLoop bits strtod fuel L' >>= _) = _
            rw [hrest]
            rfl
          · rcases t with _ | u
            · refine ⟨?_, hroot.behind hw⟩
              rw [hw.text]
              exact hroot.1.blank (hblank rfl)
            · obtain ⟨hstart, hline, hlen⟩ := htoken u rfl
              have htext : u.text = w := by
                unfold Token.text
                rw [hstart, hlen, hw.text, List.take_left]
              refine ⟨Tiles.token L.p L'.p u ts ?_ ?_ ?_ hroot.1, fun x hx => ?_⟩
              · rw [hstart]
                exact Gap.none _
              · rwa [htext]
              · rw [hstart, htext, hw.text]
              · rcases List.mem_cons.mp hx with rfl | hx
                · exact ⟨[], by rw [hstart, List.nil_append], fun _ => by rw [hline]; rfl⟩
                · exact hroot.behind hw x hx

/-- The lexer of a source ends, with an error that has a line, or with tokens that are parts of the source in their
order. Between them are blanks only, and each has the line of its place. -/
theorem lex_located (hbits : 4 ≤ bits) (source : List UInt8) :
    (∃ line msg, lex bits strtod source = .error (.error line msg)) ∨
      ∃ ts, lex bits strtod source = .ok ts ∧ Tiles (skipHash source) ts ∧ ∀ t ∈ ts, Located source t := by
  have hhash : Behind source (skipHash source) := by
    unfold skipHash
    split_ifs
    · exact Behind.dropWhile (by decide)
    · exact Behind.refl source
  obtain ⟨w, hw, hplain⟩ := hhash
  have hpass : Passes ⟨source, 1⟩ ⟨skipHash source, 1⟩ w := Passes.plain hw hplain
  have hfuel : (skipHash source).length < source.length + 1 := by
    have := congrArg List.length hw
    rw [List.length_append] at this
    omega
  rcases @lexLoop_rooted bits ⟨skipHash source, 1⟩ strtod hbits _ hfuel with h | ⟨ts, hts, hroot⟩
  · exact Or.inl h
  · exact Or.inr ⟨ts, hts, hroot.1, hroot.behind hpass⟩

/-- Two names on two lines. -/
theorem lex_located_names : ∃ ts, lex 64 (fun _ => ⟨0⟩) [97, 10, 98] = .ok ts ∧ ts.map Token.line = [1, 2, 2] ∧
    Tiles [97, 10, 98] ts ∧ ∀ t ∈ ts, Located [97, 10, 98] t := by
  rcases @lex_located 64 (fun _ => ⟨0⟩) (by decide) [97, 10, 98] with ⟨line, msg, h⟩ | ⟨ts, hts, h⟩
  · exact absurd h (by
      show (Except.ok _ : Except LexFault (List Token)) ≠ _
      simp)
  · refine ⟨ts, hts, ?_, h⟩
    obtain rfl := Except.ok.inj hts
    rfl

end

end Lua2wasm.Lexer
