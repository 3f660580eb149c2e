import Lua2wasm.Pattern.Safety

/-!
# Successive matches

The matches of a pattern one after the other (`matchesFrom`): each search starts at the end of the match before and
takes no match that ends there, which is how an empty match directly after a match is left out. `matchesFrom_eq` goes
through them position by position, as the loops of the code do.

`substituted` is the subject with the first matches replaced and everything else as it is, and how many they are.
`gsub_replaces_iff` says when `string.gsub` gives this for a limit of 64 bits: its limit is truncated to 32 bits, and
it is exact where that leaves the number of replacements as it is and the builder has room.
-/

namespace Lua2wasm.Pattern

open Table (Fault)
open Pack (chr orTrap raise)

/-- A match: where it starts, where it ends, and its captures. -/
abbrev Match := ℕ × ℕ × List Cap

section

variable (R : Rules) (sub pat : List UInt8) (ppos : ℕ) (anchored : Bool)

/-- The next match from a position on, which does not end at `last`. -/
def nextMatch (sp : ℕ) (last : ℤ) : Except PatError (Option Match) :=
  searchWith R sub pat ppos anchored (fun stop => (stop : ℤ) ≠ last) (sub.length + 1 - sp) sp

/-- Successive matches, up to an error. With an anchor there is at most one. -/
def successive : ℕ → ℕ → ℤ → Outcomes PatError Match
  | 0, _, _ => []
  | fuel + 1, sp, last =>
    match nextMatch R sub pat ppos anchored sp last with
    | .error e => [.error e]
    | .ok none => []
    | .ok (some m) => .ok m :: if anchored then [] else successive fuel m.2.1 m.2.1

/-- All matches from a position on, after one that ended at `last`. -/
def matchesFrom (sp : ℕ) (last : ℤ) : Outcomes PatError Match :=
  successive R sub pat ppos anchored (sub.length + 2) sp last

end

/-- The matches that `string.gsub` may replace. -/
def gsubMatches (sub pat : List UInt8) : Outcomes PatError Match :=
  matchesFrom walkRules sub pat (patAnchorStart pat) (patAnchorStart pat = 1) 0 (-1)

instance (caps : List Cap) : Decidable (FirstClosed caps) :=
  inferInstanceAs (Decidable (∀ c ∈ caps.take 1, c.Closed))

instance (repl : Repl) (caps : List Cap) : Decidable (repl.Needs caps) :=
  match repl with
  | .str _ => isTrue trivial
  | .table _ => inferInstanceAs (Decidable (FirstClosed caps))
  | .fn _ => inferInstanceAs (Decidable (AllClosed caps))

/-- The text that replaces a match, of which `count` have been replaced before. -/
def Repl.expand (repl : Repl) (sub : List UInt8) (caps : List Cap) (count sp stop : ℕ) : Except Fault (List UInt8) :=
  if repl.Needs caps then
    match (repl.pieces sub caps count sp stop).raised with
    | some msg => raise msg
    | none => .ok (repl.pieces sub caps count sp stop).bytes
  else .error .stuck

/-- The subject from `last` on, with matches replaced. -/
def substitute (sub : List UInt8) (repl : Repl) : ℕ → ℕ → Outcomes PatError Match → Except Fault (List UInt8)
  | _, last, [] => .ok (sub.drop last)
  | _, _, .error _ :: _ => .error .stuck
  | count, last, .ok (sp, stop, caps) :: ms => do
    let x ← repl.expand sub caps count sp stop
    let rest ← substitute sub repl (count + 1) stop ms
    .ok ((sub.drop last).take (sp - last) ++ x ++ rest)

/-- The subject with at most `n` matches replaced, and how many there are. -/
def substituted (sub pat : List UInt8) (repl : Repl) (n : ℤ) : Except Fault (List UInt8 × ℕ) := do
  let x ← substitute sub repl 0 0 ((gsubMatches sub pat).take n.toNat)
  .ok (x, ((gsubMatches sub pat).take n.toNat).length)

/-- The low 32 bits of a limit allow as many replacements as the limit. -/
def LimitKept (sub pat : List UInt8) (n : Int64) : Prop :=
  min (wrap32 n).toNat (gsubMatches sub pat).length = min n.toInt.toNat (gsubMatches sub pat).length

variable {R : Rules} {sub pat : List UInt8} {ppos sp stop t count : ℕ} {anchored : Bool} {last : ℤ}
  {caps : List Cap} {repl : Repl}
variable {ms : Outcomes PatError Match}

/-! ## The next match -/

/-- A match that is found starts at the position or later, and is taken. -/
theorem searchWith_found {take : ℕ → Bool} (hR : R.Forward) :
    ∀ (todo sp : ℕ), searchWith R sub pat ppos anchored take todo sp = .ok (some (t, stop, caps)) →
      sp ≤ t ∧ t ≤ stop ∧ t < sp + todo ∧ take stop = true := by
  intro todo
  induction todo with
  | zero => nofun
  | succ todo ih =>
    intro sp h
    unfold searchWith at h
    cases hm : matchAt R sub pat ppos sp with
    | error e =>
      rw [hm] at h
      cases h
    | ok r =>
      rw [hm] at h
      dsimp only at h
      cases hf : r.filter fun r => take r.1 with
      | some m =>
        rw [hf] at h
        cases h
        obtain ⟨rfl, htake⟩ := Option.filter_eq_some_iff.mp hf
        exact ⟨Nat.le_refl _, matchAt_le hR hm, by omega, htake⟩
      | none =>
        rw [hf] at h
        dsimp only at h
        split at h
        · cases h
        · obtain ⟨h₁, h₂, h₃, h₄⟩ := ih (sp + 1) h
          exact ⟨by omega, h₂, by omega, h₄⟩

theorem nextMatch_found (hR : R.Forward) (h : nextMatch R sub pat ppos anchored sp last = .ok (some (t, stop, caps))) :
    sp ≤ t ∧ t ≤ stop ∧ t ≤ sub.length ∧ (stop : ℤ) ≠ last := by
  obtain ⟨h₁, h₂, h₃, h₄⟩ := searchWith_found hR _ sp h
  exact ⟨h₁, h₂, by omega, of_decide_eq_true h₄⟩

/-- What is left to search. It gets less with every match, as only the first may end where the search starts. -/
def leftToSearch (sub : List UInt8) (sp : ℕ) (last : ℤ) : ℕ := sub.length + 1 - sp + if last = sp then 0 else 1

/-- The fuel does not matter, if it is enough. -/
theorem successive_fuel (hR : R.Forward) :
    ∀ (fuel fuel' sp : ℕ) (last : ℤ), leftToSearch sub sp last ≤ fuel → leftToSearch sub sp last ≤ fuel' →
      successive R sub pat ppos anchored fuel sp last = successive R sub pat ppos anchored fuel' sp last := by
  -- without anything left there is no match
  have hzero : ∀ (fuel sp : ℕ) (last : ℤ), leftToSearch sub sp last = 0 →
      successive R sub pat ppos anchored fuel sp last = [] := by
    intro fuel sp last h
    cases fuel with
    | zero => rfl
    | succ fuel =>
      have htodo : sub.length + 1 - sp = 0 := by
        unfold leftToSearch at h
        omega
      unfold successive nextMatch
      rw [htodo]
      rfl
  intro fuel
  induction fuel with
  | zero =>
    intro fuel' sp last h _
    rw [hzero 0 sp last (by omega), hzero fuel' sp last (by omega)]
  | succ fuel ih =>
    intro fuel' sp last h h'
    cases fuel' with
    | zero => rw [hzero 0 sp last (by omega), hzero _ sp last (by omega)]
    | succ fuel' =>
      unfold successive
      cases hn : nextMatch R sub pat ppos anchored sp last with
      | error e => rfl
      | ok r =>
        cases r with
        | none => rfl
        | some m =>
          obtain ⟨t, stop, caps⟩ := m
          obtain ⟨h₁, h₂, h₃, h₄⟩ := nextMatch_found hR hn
          have hless : leftToSearch sub stop stop < leftToSearch sub sp last := by
            unfold leftToSearch
            rw [if_pos rfl]
            split <;> omega
          dsimp only
          rw [ih fuel' stop stop (by omega) (by omega)]

/-- The matches, from the first on. -/
theorem matchesFrom_next (hR : R.Forward) :
    matchesFrom R sub pat ppos anchored sp last =
      match nextMatch R sub pat ppos anchored sp last with
      | .error e => [.error e]
      | .ok none => []
      | .ok (some m) => .ok m :: if anchored then [] else matchesFrom R sub pat ppos anchored m.2.1 m.2.1 := by
  unfold matchesFrom
  conv => lhs; unfold successive
  cases hn : nextMatch R sub pat ppos anchored sp last with
  | error e => rfl
  | ok r =>
    cases r with
    | none => rfl
    | some m =>
      dsimp only
      rw [successive_fuel hR (sub.length + 1) (sub.length + 2) m.2.1 m.2.1 _ _]
      · unfold leftToSearch
        rw [if_pos rfl]
        omega
      · unfold leftToSearch
        rw [if_pos rfl]
        omega

/-- The matches, one position after the other. -/
theorem matchesFrom_eq (hR : R.Forward) (hsp : sp ≤ sub.length) :
    matchesFrom R sub pat ppos anchored sp last =
      match matchAt R sub pat ppos sp with
      | .error e => [.error e]
      | .ok r =>
        match r.filter fun r => (r.1 : ℤ) ≠ last with
        | some (stop, caps) =>
          .ok (sp, stop, caps) :: if anchored then [] else matchesFrom R sub pat ppos anchored stop stop
        | none => if anchored then [] else matchesFrom R sub pat ppos anchored (sp + 1) last := by
  have htodo : sub.length + 1 - sp = sub.length + 1 - (sp + 1) + 1 := by omega
  rw [matchesFrom_next hR]
  unfold nextMatch
  rw [htodo]
  unfold searchWith
  cases hm : matchAt R sub pat ppos sp with
  | error e => rfl
  | ok r =>
    dsimp only
    cases hf : r.filter fun r => decide ((r.1 : ℤ) ≠ last) with
    | some m => rfl
    | none =>
      by_cases hanch : anchored = true
      · rw [if_pos hanch, if_pos hanch]
      · rw [if_neg hanch, if_neg hanch, matchesFrom_next hR]
        rfl

theorem matchesFrom_beyond (hR : R.Forward) (hsp : sub.length < sp) :
    matchesFrom R sub pat ppos anchored sp last = [] := by
  rw [matchesFrom_next hR]
  unfold nextMatch
  rw [show sub.length + 1 - sp = 0 by omega]
  rfl

/-- The first match starts at the position or later. -/
theorem matchesFrom_start (hR : R.Forward) {n : ℕ}
    (h : (matchesFrom R sub pat ppos anchored sp last).take n = .ok (t, stop, caps) :: ms) : sp ≤ t := by
  obtain ⟨rest, h⟩ : ∃ rest, matchesFrom R sub pat ppos anchored sp last = .ok (t, stop, caps) :: rest := by
    refine ⟨ms ++ (matchesFrom R sub pat ppos anchored sp last).drop n, ?_⟩
    rw [← List.cons_append, ← h, List.take_append_drop]
  rw [matchesFrom_next hR] at h
  cases hn : nextMatch R sub pat ppos anchored sp last with
  | error e =>
    rw [hn] at h
    cases h
  | ok r =>
    rw [hn] at h
    cases r with
    | none => cases h
    | some m =>
      cases h
      exact (nextMatch_found hR hn).1

/-- After an empty match the search goes on with the next position. -/
theorem matchesFrom_after (hR : R.Forward) (hsp : sp ≤ sub.length) (hanch : ¬ anchored = true)
    (hm : matchAt R sub pat ppos sp = .ok (some (stop, caps))) :
    matchesFrom R sub pat ppos anchored stop stop =
      matchesFrom R sub pat ppos anchored (if stop = sp then sp + 1 else stop) stop := by
  split
  · rename_i hempty
    subst hempty
    rw [matchesFrom_eq hR hsp, hm]
    dsimp only
    rw [Option.filter_some_neg (by simp)]
    exact if_neg hanch
  · rfl

/-- A match does not overlap with a later one, which ends after it. -/
def Apart (m m' : Match) : Prop := m.2.1 ≤ m'.1 ∧ m'.1 ≤ m'.2.1 ∧ m.2.1 < m'.2.1

/-- Successive matches do not overlap, and none is empty at the end of one before. -/
theorem successive_apart (hR : R.Forward) :
    ∀ (fuel sp : ℕ) (last : ℤ), last ≤ sp →
      (∀ m : Match, .ok m ∈ successive R sub pat ppos anchored fuel sp last →
        sp ≤ m.1 ∧ m.1 ≤ m.2.1 ∧ last < m.2.1) ∧
      (successive R sub pat ppos anchored fuel sp last).Pairwise fun r r' =>
        ∀ m m', r = .ok m → r' = .ok m' → Apart m m' := by
  intro fuel
  induction fuel with
  | zero => exact fun _ _ _ => ⟨nofun, List.Pairwise.nil⟩
  | succ fuel ih =>
    intro sp last hlast
    unfold successive
    cases hn : nextMatch R sub pat ppos anchored sp last with
    | error e =>
      refine ⟨?_, List.pairwise_singleton _ _⟩
      intro m hm
      cases List.mem_singleton.mp hm
    | ok r =>
      cases r with
      | none => exact ⟨nofun, List.Pairwise.nil⟩
      | some m =>
        obtain ⟨t, stop, caps⟩ := m
        obtain ⟨h₁, h₂, -, h₄⟩ := nextMatch_found hR hn
        obtain ⟨hall, hpair⟩ := ih stop stop (le_refl _)
        dsimp only
        by_cases hanch : anchored = true
        · rw [if_pos hanch]
          refine ⟨?_, List.pairwise_singleton _ _⟩
          intro m hm
          cases List.mem_singleton.mp hm
          exact ⟨h₁, h₂, by dsimp only; omega⟩
        · rw [if_neg hanch]
          constructor
          · intro m hm
            rcases List.mem_cons.mp hm with hm | hm
            · cases hm
              exact ⟨h₁, h₂, by dsimp only; omega⟩
            · obtain ⟨g₁, g₂, g₃⟩ := hall m hm
              exact ⟨by omega, g₂, by omega⟩
          · refine List.Pairwise.cons ?_ hpair
            intro r hr a a' ha ha'
            cases ha
            subst ha'
            obtain ⟨g₁, g₂, g₃⟩ := hall a' hr
            exact ⟨g₁, g₂, by exact_mod_cast g₃⟩

/-! ## What is replaced -/

/-- The byte after an empty match is copied with the rest. -/
theorem substitute_skip (hsp : sp < sub.length)
    (hlater : ∀ t stop caps ms', ms = .ok (t, stop, caps) :: ms' → sp < t) : substitute sub repl count sp ms =
      substitute sub repl count (sp + 1) ms >>= fun x => .ok ((sub.drop sp).take 1 ++ x) := by
  have hdrop : sub.drop sp = sub[sp] :: sub.drop (sp + 1) := List.drop_eq_getElem_cons hsp
  cases ms with
  | nil =>
    change Except.ok (sub.drop sp) = Except.ok ((sub.drop sp).take 1 ++ sub.drop (sp + 1))
    rw [hdrop]
    rfl
  | cons r ms =>
    cases r with
    | error e => rfl
    | ok m =>
      obtain ⟨t, stop, caps⟩ := m
      have ht := hlater t stop caps ms rfl
      obtain ⟨k, rfl⟩ : ∃ k, t = sp + 1 + k := ⟨t - (sp + 1), by omega⟩
      have hgap : (sub.drop sp).take (sp + 1 + k - sp) =
          (sub.drop sp).take 1 ++ (sub.drop (sp + 1)).take (sp + 1 + k - (sp + 1)) := by
        rw [hdrop, show sp + 1 + k - sp = k + 1 by omega, show sp + 1 + k - (sp + 1) = k by omega]
        rfl
      unfold substitute
      rw [hgap]
      cases repl.expand sub caps count (sp + 1 + k) stop with
      | error e => rfl
      | ok x =>
        cases substitute sub repl (count + 1) stop ms with
        | error e => rfl
        | ok rest =>
          simp only [Pack.ok_bind, List.append_assoc]

/-- At the end there is no byte to copy. -/
theorem substitute_end :
    substitute sub repl count sub.length ms = substitute sub repl count (sub.length + 1) ms := by
  have hdrop : sub.drop (sub.length + 1) = sub.drop sub.length := by
    rw [List.drop_of_length_le (Nat.le_succ _), List.drop_length]
  cases ms with
  | nil =>
    unfold substitute
    rw [hdrop]
  | cons r ms =>
    cases r with
    | error e => rfl
    | ok m =>
      unfold substitute
      rw [hdrop, List.drop_length, List.take_nil, List.take_nil]

/-- After an empty match, the byte that is there comes before what is left. -/
theorem substitute_after (hsp : sp ≤ sub.length)
    (hlater : ∀ t stop' caps ms', ms = .ok (t, stop', caps) :: ms' → (if stop = sp then sp + 1 else stop) ≤ t) :
    substitute sub repl count stop ms = substitute sub repl count (if stop = sp then sp + 1 else stop) ms >>= fun x =>
      .ok ((if stop = sp then (sub.drop sp).take 1 else []) ++ x) := by
  by_cases hempty : stop = sp
  · subst hempty
    rw [if_pos rfl] at hlater
    rw [if_pos rfl, if_pos rfl]
    rcases Nat.lt_or_eq_of_le hsp with hend | hend
    · exact substitute_skip hend hlater
    · rw [hend, substitute_end, List.drop_length]
      cases substitute sub repl count (sub.length + 1) ms <;> rfl
  · rw [if_neg hempty, if_neg hempty]
    cases substitute sub repl count stop ms <;> rfl

theorem raised_append (ps qs : Pieces) : Pieces.raised (ps ++ qs) = ps.raised.or qs.raised := by
  induction ps with
  | nil => rfl
  | cons p ps ih =>
    cases p with
    | error msg => rfl
    | ok x => exact ih

theorem bytes_append {ps : Pieces} (qs : Pieces) (h : ps.raised = none) :
    Pieces.bytes (ps ++ qs) = Pieces.bytes ps ++ Pieces.bytes qs := by
  induction ps with
  | nil => rfl
  | cons p ps ih =>
    cases p with
    | error msg => cases h
    | ok x =>
      change x ++ Pieces.bytes (ps ++ qs) = x ++ Pieces.bytes ps ++ Pieces.bytes qs
      rw [ih h, List.append_assoc]

theorem rangePieces_spec (sub : List UInt8) (start len : ℕ) :
    (rangePieces sub start len).raised = none ∧ (rangePieces sub start len).bytes = (sub.drop start).take len := by
  unfold rangePieces
  by_cases hnone : len = 0
  · rw [if_pos hnone, hnone]
    exact ⟨rfl, rfl⟩
  · rw [if_neg hnone]
    exact ⟨rfl, List.append_nil _⟩

/-- The code ends as the text that is to come says, with the builder that it has so far. -/
def Agrees (sub b : List UInt8) (count m : ℕ) (text : Except Fault (List UInt8)) (code : Except Fault (List PatVal)) :
    Prop :=
  match text with
  | .error _ => ∃ e, code = .error e
  | .ok x => code =
      if count + m = 0 then .ok [.str sub, .int 0]
      else if 2^30 < b.length + x.length then .error .stuck
      else .ok [.str (b ++ x), .int (count + m : ℕ)]

/-- The end of `string.gsub`. -/
theorem gsubFinish_agrees {st : GsubState} (hb : st.b.length ≤ 2^30) :
    Agrees sub st.b st.count 0 (.ok (sub.drop st.lastEnd)) (gsubFinish sub st) := by
  unfold Agrees gsubFinish
  dsimp only
  rw [Nat.add_zero]
  by_cases hcount : st.count = 0
  · rw [if_pos hcount, if_pos hcount]
    rfl
  rw [if_neg hcount, if_neg hcount, appendRange_eq (by omega) (by omega), appendAll_eq _ _ hb, Int.toNat_natCast,
    show ((sub.length : ℤ) - st.lastEnd).toNat = sub.length - st.lastEnd by omega]
  obtain ⟨hraised, hbytes⟩ := rangePieces_spec sub st.lastEnd (sub.length - st.lastEnd)
  rw [hraised, hbytes, List.take_of_length_le (by rw [List.length_drop])]
  split_ifs <;> rfl

/-- What a turn appends: the subject since the last match, the replacement, and the byte after an empty match. -/
theorem turnPieces_spec (sub : List UInt8) (repl : Repl) (caps : List Cap) (lastEnd count sp stop : ℕ) :
    (turnPieces sub repl caps lastEnd count sp stop).raised = (repl.pieces sub caps count sp stop).raised ∧
      ((repl.pieces sub caps count sp stop).raised = none →
        (turnPieces sub repl caps lastEnd count sp stop).bytes = (sub.drop lastEnd).take (sp - lastEnd) ++
          (repl.pieces sub caps count sp stop).bytes ++ if stop = sp then (sub.drop sp).take 1 else []) := by
  obtain ⟨hgap, hgap'⟩ := rangePieces_spec sub lastEnd (sp - lastEnd)
  obtain ⟨hbyte, hbyte'⟩ := rangePieces_spec sub sp (if stop = sp then min 1 (sub.length - sp) else 0)
  have hone : (sub.drop sp).take (if stop = sp then min 1 (sub.length - sp) else 0) =
      if stop = sp then (sub.drop sp).take 1 else [] := by
    split
    · rw [← List.length_drop, ← List.take_eq_take_min]
    · rfl
  unfold turnPieces
  constructor
  · rw [raised_append, raised_append, hgap, hbyte, Option.none_or, Option.or_none]
  · intro hrepl
    rw [bytes_append _ (by rw [raised_append, hgap, hrepl]; rfl), bytes_append _ hgap, hgap', hbyte', hone]

/-- A turn that replaces a match, when what comes after it is known. -/
theorem agrees_turn {b : List UInt8} {lastEnd : ℕ}
    {k : List UInt8 → Except Fault GsubState} (hb : b.length ≤ 2^30) (hneed : repl.Needs caps)
    (hnext : ∀ b', b' = b ++ (turnPieces sub repl caps lastEnd count sp stop).bytes → b'.length ≤ 2^30 →
      Agrees sub b' (count + 1) ms.length (substitute sub repl (count + 1) t ms) (k b' >>= gsubFinish sub))
    (hskip : substitute sub repl (count + 1) stop ms = substitute sub repl (count + 1) t ms >>= fun x =>
      .ok ((if stop = sp then (sub.drop sp).take 1 else []) ++ x)) :
    Agrees sub b count (ms.length + 1) (substitute sub repl count lastEnd (.ok (sp, stop, caps) :: ms))
      (appendAll b (turnPieces sub repl caps lastEnd count sp stop) >>= k >>= gsubFinish sub) := by
  obtain ⟨hraised, hbytes⟩ := turnPieces_spec sub repl caps lastEnd count sp stop
  have hexpand : repl.expand sub caps count sp stop =
      match (repl.pieces sub caps count sp stop).raised with
      | some msg => raise msg
      | none => .ok (repl.pieces sub caps count sp stop).bytes := if_pos hneed
  unfold substitute
  rw [appendAll_eq _ _ hb, hexpand, hraised]
  cases hr : (repl.pieces sub caps count sp stop).raised with
  | some msg =>
    unfold Agrees
    split_ifs <;> exact ⟨_, rfl⟩
  | none =>
    have hb' := hbytes hr
    rw [Pack.ok_bind, hskip]
    by_cases hroom : 2^30 < b.length + (turnPieces sub repl caps lastEnd count sp stop).bytes.length
    · rw [if_pos hroom]
      cases substitute sub repl (count + 1) t ms with
      | error e => exact ⟨_, rfl⟩
      | ok y =>
        change Except.error Fault.stuck = _
        rw [hb'] at hroom
        simp only [List.length_append] at hroom ⊢
        rw [if_neg (by omega), if_pos (by omega)]
    · rw [if_neg hroom]
      have hgo := hnext _ rfl (by rw [List.length_append]; omega)
      change Agrees sub b count (ms.length + 1) _
        (k (b ++ (turnPieces sub repl caps lastEnd count sp stop).bytes) >>= gsubFinish sub)
      cases hrest : substitute sub repl (count + 1) t ms with
      | error e =>
        rw [hrest] at hgo
        exact hgo
      | ok y =>
        rw [hrest] at hgo
        have hlen : b.length + ((sub.drop lastEnd).take (sp - lastEnd) ++ (repl.pieces sub caps count sp stop).bytes ++
            ((if stop = sp then (sub.drop sp).take 1 else []) ++ y)).length =
            (b ++ (turnPieces sub repl caps lastEnd count sp stop).bytes).length + y.length := by
          rw [hb']
          simp only [List.length_append]
          omega
        -- the turn appends what the reference puts before the rest
        have htext : b ++ ((sub.drop lastEnd).take (sp - lastEnd) ++ (repl.pieces sub caps count sp stop).bytes ++
            ((if stop = sp then (sub.drop sp).take 1 else []) ++ y)) =
            b ++ (turnPieces sub repl caps lastEnd count sp stop).bytes ++ y := by
          rw [hb']
          simp only [List.append_assoc]
        unfold Agrees at hgo ⊢
        dsimp only [Pack.ok_bind] at hgo ⊢
        rw [if_neg (by omega)] at hgo
        rw [if_neg (by omega), hlen, htext, hgo, show count + 1 + ms.length = count + (ms.length + 1) by omega]

/-- The loop of `string.gsub` replaces the matches that are left, up to the limit. -/
theorem gsubFrom_agrees (sub pat : List UInt8) (repl : Repl) (limit : ℤ) :
    ∀ (fuel : ℕ) (st : GsubState) (ms : Outcomes PatError Match), st.caps.length = 64 → st.lastEnd ≤ st.sp →
      st.b.length ≤ 2^30 → st.lastMatch ≤ st.sp → sub.length + 1 - st.sp < fuel →
      ms = (matchesFrom walkRules sub pat (patAnchorStart pat) (patAnchorStart pat = 1) st.sp st.lastMatch).take
        (limit - st.count).toNat →
      Agrees sub st.b st.count ms.length (substitute sub repl st.count st.lastEnd ms)
        (gsubFrom sub pat repl limit fuel st >>= gsubFinish sub) := by
  intro fuel
  induction fuel with
  | zero =>
    intro st ms _ _ _ _ hfuel
    omega
  | succ fuel ih =>
    intro st ms harr hlast hb hmatch hfuel hms
    unfold gsubFrom
    by_cases hcount : (st.count : ℤ) ≥ limit
    · rw [if_pos hcount]
      rw [show (limit - st.count).toNat = 0 by omega, List.take_zero] at hms
      subst hms
      exact gsubFinish_agrees hb
    rw [if_neg hcount]
    by_cases hend : st.sp > sub.length
    · rw [if_pos hend]
      rw [matchesFrom_beyond walkRules_forward hend, List.take_nil] at hms
      subst hms
      exact gsubFinish_agrees hb
    rw [if_neg hend]
    obtain ⟨k, hk⟩ : ∃ k, (limit - st.count).toNat = k + 1 := ⟨(limit - st.count).toNat - 1, by omega⟩
    rw [hk, matchesFrom_eq walkRules_forward (Nat.not_lt.mp hend)] at hms
    have hspec := @startMatch_spec sub pat st.caps st.sp (patAnchorStart pat) harr (Nat.not_lt.mp hend)
    -- without a match to replace, the loop goes on with the next position
    have hskip : ∀ arr' : List ℤ, arr'.length = 64 →
        ms = (if (decide (patAnchorStart pat = 1) : Bool) = true then [] else matchesFrom walkRules sub pat
          (patAnchorStart pat) (patAnchorStart pat = 1) (st.sp + 1) st.lastMatch).take (k + 1) →
        Agrees sub st.b st.count ms.length (substitute sub repl st.count st.lastEnd ms)
          ((if decide (patAnchorStart pat = 1) = true then pure { st with caps := arr' }
            else gsubFrom sub pat repl limit fuel { st with sp := st.sp + 1, caps := arr' }) >>= gsubFinish sub) := by
      intro arr' harr' hms
      by_cases hanch : (decide (patAnchorStart pat = 1) : Bool) = true
      · rw [if_pos hanch] at hms ⊢
        rw [List.take_nil] at hms
        subst hms
        exact @gsubFinish_agrees sub { st with caps := arr' } hb
      · rw [if_neg hanch] at hms ⊢
        refine ih { st with sp := st.sp + 1, caps := arr' } ms harr' (Nat.le_succ_of_le hlast) hb ?_ ?_ ?_
        · change st.lastMatch ≤ ((st.sp + 1 : ℕ) : ℤ)
          omega
        · change sub.length + 1 - (st.sp + 1) < fuel
          omega
        · rw [hms, hk]
    cases hm : matchAt walkRules sub pat (patAnchorStart pat) st.sp with
    | error e =>
      rw [hm] at hspec hms
      dsimp only at hspec hms
      rw [hspec, hms]
      exact ⟨_, rfl⟩
    | ok r =>
      rw [hm] at hspec hms
      cases r with
      | none =>
        obtain ⟨arr', hrun, harr'⟩ := hspec
        rw [hrun]
        exact hskip arr' harr' hms
      | some r =>
        obtain ⟨stop, caps⟩ := r
        obtain ⟨arr', hrun, hh, hp⟩ := hspec
        have hsp : st.sp ≤ stop := matchAt_le walkRules_forward hm
        rw [hrun]
        dsimp only at hms
        change Agrees _ _ _ _ _ ((if stop = st.sp ∧ (st.sp : ℤ) = st.lastMatch then _ else _) >>= gsubFinish sub)
        by_cases hsame : stop = st.sp ∧ (st.sp : ℤ) = st.lastMatch
        · rw [Option.filter_some_neg (by simp [hsame.1, hsame.2])] at hms
          rw [if_pos hsame]
          exact hskip arr' hh.length_arr hms
        rw [Option.filter_some_pos (by dsimp only; exact decide_eq_true (by omega))] at hms
        rw [if_neg hsame]
        rw [List.take_succ_cons] at hms
        by_cases hneed : repl.Needs caps
        · rw [turn_eq hh hp hsp hlast hneed, hms]
          refine agrees_turn (t := if stop = st.sp then st.sp + 1 else stop) hb hneed ?_ ?_
          · intro b' _ hroom
            by_cases hanch : (decide (patAnchorStart pat = 1) : Bool) = true
            · rw [if_pos hanch, if_pos hanch, List.take_nil]
              exact @gsubFinish_agrees sub ⟨if stop = st.sp then st.sp + 1 else stop, st.count + 1,
                if stop = st.sp then st.sp + 1 else stop, stop, b', arr'⟩ hroom
            · rw [if_neg hanch, if_neg hanch]
              refine ih ⟨if stop = st.sp then st.sp + 1 else stop, st.count + 1,
                if stop = st.sp then st.sp + 1 else stop, stop, b', arr'⟩
                _ hh.length_arr (Nat.le_refl _) hroom ?_ ?_ ?_
              · dsimp only
                split <;> omega
              · dsimp only
                split <;> omega
              · rw [matchesFrom_after walkRules_forward (Nat.not_lt.mp hend) hanch hm]
                congr 1
                dsimp only
                omega
          · refine substitute_after (Nat.not_lt.mp hend) ?_
            intro t stop' caps' ms' hfirst
            by_cases hanch : (decide (patAnchorStart pat = 1) : Bool) = true
            · rw [if_pos hanch, List.take_nil] at hfirst
              cases hfirst
            · rw [if_neg hanch, matchesFrom_after walkRules_forward (Nat.not_lt.mp hend) hanch hm] at hfirst
              exact matchesFrom_start walkRules_forward hfirst
        · rw [turn_stuck hh hp hsp hneed, hms]
          unfold substitute Repl.expand
          rw [if_neg hneed]
          exact ⟨_, rfl⟩

/-! ## The whole call -/

/-- `string.gsub` replaces the first matches, as many as the low 32 bits of the limit allow. -/
theorem gsub_agrees (sub pat : List UInt8) (repl : Repl) (n : Int64) :
    Agrees sub [] 0 ((gsubMatches sub pat).take (wrap32 n).toNat).length
      (substitute sub repl 0 0 ((gsubMatches sub pat).take (wrap32 n).toNat)) (gsub sub pat repl (some n)) := by
  have hloop := gsubFrom_agrees sub pat repl (wrap32 n) (sub.length + 2) GsubState.start
    ((gsubMatches sub pat).take (wrap32 n).toNat) rfl (Nat.le_refl 0) (Nat.zero_le _) (by decide)
    (Nat.lt_succ_self _)
  refine hloop ?_
  change _ = List.take (wrap32 n - (0 : ℕ)).toNat _
  rw [Nat.cast_zero, sub_zero]
  rfl

/-- Exactly when `string.gsub` gives the subject with the first matches replaced, for a limit of 64 bits. -/
theorem gsub_replaces_iff (sub pat : List UInt8) (repl : Repl) (n : Int64) :
    (gsubMatches sub pat).Pairwise (fun r r' => ∀ m m', r = .ok m → r' = .ok m' → Apart m m') ∧
    match substituted sub pat repl n.toInt with
    | .ok (x, k) => gsub sub pat repl (some n) = .ok [.str x, .int k] ↔
        LimitKept sub pat n ∧ (k = 0 ∨ x.length ≤ 2^30)
    | .error _ => LimitKept sub pat n → ∃ e, gsub sub pat repl (some n) = .error e := by
  refine ⟨(successive_apart walkRules_forward _ _ _ (by decide)).2, ?_⟩
  have hcode := gsub_agrees sub pat repl n
  -- the same number of matches means the same matches
  have hlen : ((gsubMatches sub pat).take (wrap32 n).toNat).length =
        ((gsubMatches sub pat).take n.toInt.toNat).length →
      (gsubMatches sub pat).take (wrap32 n).toNat = (gsubMatches sub pat).take n.toInt.toNat := by
    intro h
    rw [List.length_take, List.length_take] at h
    rw [List.take_eq_take_min, h, ← List.take_eq_take_min]
  have hsame : LimitKept sub pat n ↔
      (gsubMatches sub pat).take (wrap32 n).toNat = (gsubMatches sub pat).take n.toInt.toNat := by
    unfold LimitKept
    rw [← List.length_take, ← List.length_take]
    exact ⟨hlen, fun h => congrArg List.length h⟩
  rw [hsame]
  unfold substituted
  cases hspec : substitute sub repl 0 0 ((gsubMatches sub pat).take n.toInt.toNat) with
  | error e =>
    intro h
    rw [h, hspec] at hcode
    exact hcode
  | ok x =>
    change gsub sub pat repl (some n) = .ok [.str x, .int ((gsubMatches sub pat).take n.toInt.toNat).length] ↔ _
    constructor
    · intro hrun
      rw [hrun] at hcode
      cases hrest : substitute sub repl 0 0 ((gsubMatches sub pat).take (wrap32 n).toNat) with
      | error e =>
        rw [hrest] at hcode
        obtain ⟨e, he⟩ := hcode
        cases he
      | ok y =>
        rw [hrest] at hcode
        unfold Agrees at hcode
        dsimp only at hcode
        rw [Nat.zero_add, List.length_nil, Nat.zero_add, List.nil_append] at hcode
        by_cases hnone : ((gsubMatches sub pat).take (wrap32 n).toNat).length = 0
        · rw [if_pos hnone] at hcode
          simp only [Except.ok.injEq, List.cons.injEq, PatVal.int.injEq, Nat.cast_eq_zero] at hcode
          have hzero := hcode.2.1
          exact ⟨hlen (hnone.trans hzero.symm), Or.inl hzero⟩
        · rw [if_neg hnone] at hcode
          by_cases hroom : 2^30 < y.length
          · rw [if_pos hroom] at hcode
            cases hcode
          · rw [if_neg hroom] at hcode
            simp only [Except.ok.injEq, List.cons.injEq, PatVal.str.injEq, PatVal.int.injEq, Nat.cast_inj] at hcode
            refine ⟨hlen hcode.2.1.symm, Or.inr ?_⟩
            rw [hcode.1]
            exact Nat.not_lt.mp hroom
    · rintro ⟨h, hroom⟩
      rw [h, hspec] at hcode
      unfold Agrees at hcode
      rw [hcode, Nat.zero_add, List.length_nil, Nat.zero_add, List.nil_append]
      by_cases hnone : ((gsubMatches sub pat).take n.toInt.toNat).length = 0
      · rw [List.length_eq_zero_iff.mp hnone] at hspec ⊢
        cases hspec
        rfl
      · rw [if_neg hnone, if_neg (by omega)]

/-- Two matches, and their captures the other way round. -/
theorem gsub_replaces_iff_pairs :
    LimitKept pairsText pairPattern 2 ∧
      gsub pairsText pairPattern (.str [37, 50, 37, 49]) (some 2) = .ok [.str [49, 97, 50, 98], .int 2] := by
  have hkept : LimitKept pairsText pairPattern 2 := by
    unfold LimitKept
    decide +kernel
  have hspec : substituted pairsText pairPattern (.str [37, 50, 37, 49]) (2 : Int64).toInt =
      .ok ([49, 97, 50, 98], 2) := by
    decide +kernel
  have hiff := (gsub_replaces_iff pairsText pairPattern (.str [37, 50, 37, 49]) 2).2
  rw [hspec] at hiff
  exact ⟨hkept, hiff.mpr ⟨hkept, Or.inr (by decide)⟩⟩

/-- A limit of 2^32 replaces nothing. -/
theorem gsub_replaces_fails : substituted [97] [97] (.str [98]) (4294967296 : Int64).toInt = .ok ([98], 1) ∧
    gsub [97] [97] (.str [98]) (some 4294967296) = .ok [.str [97], .int 0] := by
  constructor <;> decide

end Lua2wasm.Pattern
