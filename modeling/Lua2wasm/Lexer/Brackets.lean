import Lua2wasm.Lexer.Tokens
import Lua2wasm.Lexer.Quoted

/-!
# Long brackets and blanks

What `try_open_long_bracket` and `read_long_body` accept, without their loops: the opening bracket of a level, and the
text up to the first closing bracket of that level. A `Blank` is what the lexer skips between tokens.
-/

namespace Lua2wasm.Lexer

/-! ## The grammar -/

/-- The opening bracket of a level. -/
def longOpen (n : ℕ) : List UInt8 := 91 :: (List.replicate n 61 ++ [91])

/-- The closing bracket of a level. -/
def longClose (n : ℕ) : List UInt8 := 93 :: (List.replicate n 61 ++ [93])

/-- A text between long brackets: the closing bracket behind it is the first one. -/
structure LongBody (n : ℕ) (body : List UInt8) : Prop where
  nonzero : ∀ c ∈ body, c ≠ 0
  first : ∀ a b, body = a ++ b → b ≠ [] → ¬longClose n <+: b ++ longClose n

/-- A text that is skipped, before another one: a character of white space, a comment up to the end of its line, a
comment in long brackets. -/
inductive Blank : List UInt8 → List UInt8 → Prop
  | space (c : UInt8) (rest : List UInt8) (hc : isspace c = true) : Blank [c] rest
  | line (s rest : List UInt8) (hs : ∀ c ∈ s, c ≠ 0 ∧ c ≠ 10) (hopen : ∀ n, ¬longOpen n <+: s)
    (hrest : rest.headD 0 = 0 ∨ rest.headD 0 = 10) : Blank (45 :: 45 :: s) rest
  | long (n : ℕ) (body rest : List UInt8) (hbody : LongBody n body) :
    Blank (45 :: 45 :: (longOpen n ++ body ++ longClose n)) rest

/-! ## Where a bracket stands -/

variable {n line : ℕ} {c d : UInt8} {p s w body rest : List UInt8} {L L' : Lex}

/-- A run of `=` of some length and what follows it. -/
theorem run_iff (hd : d ≠ 61) (h0 : d ≠ 0) :
    (p.takeWhile (· = 61)).length = n ∧ p.getD n 0 = d ↔ List.replicate n 61 ++ [d] <+: p := by
  induction n generalizing p with
  | zero =>
    rcases p with _ | ⟨c, p⟩
    · simpa using h0.symm
    · rw [List.takeWhile_cons, List.replicate_zero, List.nil_append, List.cons_prefix_cons]
      constructor
      · rintro ⟨-, hc⟩
        exact ⟨hc.symm, List.nil_prefix⟩
      · rintro ⟨rfl, -⟩
        rw [if_neg (by simpa using hd)]
        exact ⟨rfl, rfl⟩
  | succ n ih =>
    rcases p with _ | ⟨c, p⟩
    · simp
    · rw [List.takeWhile_cons, List.replicate_succ, List.cons_append, List.cons_prefix_cons, ← ih]
      by_cases hc : c = 61
      · rw [if_pos (by simpa using hc), List.length_cons, Nat.add_right_cancel_iff, List.getD_cons_succ]
        exact ⟨fun h => ⟨hc.symm, h⟩, fun h => h.2⟩
      · rw [if_neg (by simpa using hc)]
        exact ⟨fun h => absurd h.1 (by simp), fun h => absurd h.1.symm hc⟩

theorem closesLong_iff : closesLong n p = true ↔ longClose n <+: p := by
  unfold closesLong longClose
  rcases p with _ | ⟨c, p⟩
  · simp
  · rw [List.headD_cons, List.tail_cons, Nat.add_comm 1 n, List.getD_cons_succ, Bool.and_eq_true, Bool.and_eq_true,
      decide_eq_true_iff, decide_eq_true_iff, decide_eq_true_iff, and_assoc, run_iff (by decide) (by decide),
      List.cons_prefix_cons]
    exact and_congr_left fun _ => eq_comm

/-- Without an opening bracket nothing is taken. -/
theorem tryOpenLongBracket_none : tryOpenLongBracket L = none ↔ ∀ n, ¬longOpen n <+: L.p := by
  obtain ⟨p, line⟩ := L
  unfold tryOpenLongBracket longOpen
  dsimp only
  rcases p with _ | ⟨c, p⟩
  · simp
  · rw [List.headD_cons, List.tail_cons]
    by_cases hc : c = 91
    · have hdrop : (List.drop (1 + (p.takeWhile (· = 61)).length) (c :: p)).headD 0 =
          p.getD (p.takeWhile (· = 61)).length 0 := by
        rw [Nat.add_comm, List.drop_succ_cons, List.headD_eq_head?_getD, List.head?_drop, List.getD_eq_getElem?_getD]
      rw [if_neg (not_not.mpr hc), hdrop]
      split_ifs with hnext
      · refine ⟨fun _ n h => ?_, fun _ => rfl⟩
        obtain ⟨hlen, hget⟩ := (run_iff (by decide) (by decide)).mpr (List.cons_prefix_cons.mp h).2
        rw [hlen] at hnext
        exact hnext hget
      all_goals
        refine ⟨fun h => absurd h (by simp), fun h => ?_⟩
        refine absurd (List.cons_prefix_cons.mpr ⟨hc.symm, ?_⟩) (h (p.takeWhile (· = 61)).length)
        exact (run_iff (by decide) (by decide)).mp ⟨rfl, not_not.mp hnext⟩
    · rw [if_pos hc]
      refine ⟨fun _ n h => ?_, fun _ => rfl⟩
      exact hc (List.cons_prefix_cons.mp h).1.symm

/-- An opening bracket is taken, and a newline behind it. -/
theorem tryOpenLongBracket_open (n line : ℕ) (p : List UInt8) :
    tryOpenLongBracket ⟨longOpen n ++ p, line⟩ =
      some (n, if p.headD 0 = 10 then ⟨p.tail, line + 1⟩ else ⟨p, line⟩) := by
  have hopen : longOpen n ++ p = 91 :: (List.replicate n 61 ++ 91 :: p) := by simp [longOpen]
  have hrun : ((List.replicate n 61 ++ 91 :: p).takeWhile (· = (61 : UInt8))).length = n :=
    ((run_iff (d := 91) (by decide) (by decide)).mpr ⟨p, by simp⟩).1
  have hdrop : List.drop (1 + n) (91 :: (List.replicate n 61 ++ 91 :: p)) = 91 :: p := by
    rw [Nat.add_comm, List.drop_succ_cons]
    exact List.drop_left' List.length_replicate
  unfold tryOpenLongBracket
  dsimp only
  rw [hopen, List.headD_cons, List.tail_cons, if_neg (by decide), hrun, hdrop, List.headD_cons, if_neg (by decide),
    List.getD_cons_succ, List.tail_cons, List.drop_succ_cons, List.getD_eq_getElem?_getD, ← List.head?_eq_getElem?,
    ← List.headD_eq_head?_getD, List.drop_one]
  split_ifs <;> rfl

/-! ## The body -/

theorem LongBody.nil (n : ℕ) : LongBody n [] := by
  refine ⟨by simp, fun a b h hb => ?_⟩
  exact absurd (List.append_eq_nil_iff.mp h.symm).2 hb

theorem longBody_cons : LongBody n (c :: body) ↔
    c ≠ 0 ∧ ¬longClose n <+: c :: body ++ longClose n ∧ LongBody n body := by
  constructor
  · intro h
    refine ⟨h.nonzero c List.mem_cons_self, h.first [] _ rfl (by simp), fun x hx => ?_, fun a b hab hb => ?_⟩
    · exact h.nonzero x (List.mem_cons_of_mem _ hx)
    · exact h.first (c :: a) b (by rw [hab, List.cons_append]) hb
  · rintro ⟨hc, hfirst, h⟩
    refine ⟨fun x hx => ?_, fun a b hab hb => ?_⟩
    · rcases List.mem_cons.mp hx with rfl | hx
      · exact hc
      · exact h.nonzero x hx
    · rcases a with _ | ⟨a, as⟩
      · rw [List.nil_append] at hab
        rwa [← hab]
      · exact h.first as b (List.cons.inj hab).2 hb

/-- More text behind a closing bracket makes no earlier one. -/
theorem closes_append (h : longClose n <+: w ++ longClose n ++ rest) :
    longClose n <+: w ++ longClose n := by
  refine List.prefix_of_prefix_length_le h (List.prefix_append _ _) ?_
  rw [List.length_append]
  exact Nat.le_add_left _ _

/-- A body is read up to the first closing bracket, and no other. -/
theorem readLongBody_iff : readLongBody n p line = some (body, L') ↔
    LongBody n body ∧ p = body ++ longClose n ++ L'.p ∧ L'.line = line + body.count 10 := by
  induction p generalizing line body with
  | nil =>
    unfold readLongBody
    refine ⟨fun h => absurd h (by simp), fun h => ?_⟩
    exact absurd (congrArg List.length h.2.1) (by simp [longClose])
  | cons c p ih =>
    unfold readLongBody
    -- the end of the source
    by_cases h0 : c = 0
    · rw [if_pos h0]
      refine ⟨fun h => absurd h (by simp), fun h => ?_⟩
      obtain ⟨hbody, h, -⟩ := h
      rcases body with _ | ⟨b, body⟩
      · rw [List.nil_append] at h
        obtain ⟨rfl, -⟩ := List.cons.inj h
        exact absurd h0 (by decide)
      · obtain ⟨rfl, -⟩ := List.cons.inj h
        exact absurd h0 (longBody_cons.mp hbody).1
    · rw [if_neg h0]
      -- a closing bracket ends the body, and any other byte belongs to it
      by_cases hclose : closesLong n (c :: p) = true
      · rw [if_pos hclose]
        obtain ⟨r, hr⟩ := closesLong_iff.mp hclose
        have hdrop : (c :: p).drop (2 + n) = r := by
          rw [← hr]
          exact List.drop_left' (by rw [longClose]; simp; omega)
        rw [hdrop]
        constructor
        · intro h
          obtain ⟨rfl, rfl⟩ := Prod.mk.inj (Option.some.inj h)
          exact ⟨LongBody.nil n, hr.symm, rfl⟩
        · rintro ⟨hbody, h, hline⟩
          rcases body with _ | ⟨b, body⟩
          · rw [List.nil_append, ← hr] at h
            obtain ⟨p', line'⟩ := L'
            obtain rfl := List.append_cancel_left h
            obtain rfl : line' = line := hline
            rfl
          · -- a closing bracket at the front of a body is one too early
            exact absurd (closes_append ⟨r, hr.trans h⟩) (longBody_cons.mp hbody).2.1
      · rw [if_neg hclose, Option.map_eq_some_iff]
        constructor
        · rintro ⟨⟨body', L''⟩, hread, h⟩
          obtain ⟨rfl, rfl⟩ := Prod.mk.inj h
          obtain ⟨hbody, rfl, hline⟩ := ih.mp hread
          refine ⟨longBody_cons.mpr ⟨h0, fun hpre => hclose (closesLong_iff.mpr ?_), hbody⟩, rfl, ?_⟩
          · exact hpre.trans ⟨L''.p, by simp⟩
          · rw [hline, List.count_cons]
            by_cases hc : c = 10
            · rw [if_pos hc, if_pos (by simpa using hc), Nat.add_right_comm, Nat.add_assoc]
            · rw [if_neg hc, if_neg (by simpa using hc), Nat.add_zero]
        · rintro ⟨hbody, h, hline⟩
          rcases body with _ | ⟨b, body⟩
          · exact absurd (closesLong_iff.mpr ⟨L'.p, h.symm⟩) hclose
          · obtain ⟨rfl, hp⟩ := List.cons.inj h
            obtain ⟨-, -, hbody⟩ := longBody_cons.mp hbody
            refine ⟨(body, L'), ih.mpr ⟨hbody, hp, ?_⟩, rfl⟩
            rw [hline, List.count_cons]
            by_cases hc : c = 10
            · rw [if_pos hc, if_pos (by simpa using hc), Nat.add_right_comm, Nat.add_assoc]
            · rw [if_neg hc, if_neg (by simpa using hc), Nat.add_zero]

end Lua2wasm.Lexer
