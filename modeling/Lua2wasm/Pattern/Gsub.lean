import Lua2wasm.Pattern.Starts

/-!
# What `string.gsub` appends

A turn of the loop of `string.gsub` appends pieces to its builder: the part of the subject since the last match,
the replacement, and the byte after an empty match (`turnPieces`). A piece may be an error instead, which ends
the call. With captures that are closed where the replacement needs their values, the code appends these pieces
one after the other (`applyRepl_eq`, `turn_eq`).
-/

namespace Lua2wasm.Pattern

open Table (Fault)
open Pack (chr orTrap raise)
open Strings (decimal)

/-- Pieces that are appended, up to the message of an error. -/
abbrev Pieces := List (Except String (List UInt8))

/-- The bytes before the first error. -/
def Pieces.bytes : Pieces → List UInt8
  | [] => []
  | .error _ :: _ => []
  | .ok x :: ps => x ++ Pieces.bytes ps

/-- The first error. -/
def Pieces.raised : Pieces → Option String
  | [] => none
  | .error msg :: _ => some msg
  | .ok _ :: ps => Pieces.raised ps

/-- The pieces are appended one after the other. -/
def appendAll (b : List UInt8) : Pieces → Except Fault (List UInt8)
  | [] => .ok b
  | .error msg :: _ => raise msg
  | .ok x :: ps => do
    let b ← Pack.builderAppend b x
    appendAll b ps

/-- A part of the subject. -/
def rangePieces (sub : List UInt8) (start len : ℕ) : Pieces :=
  if len = 0 then [] else [.ok ((sub.drop start).take len)]

/-- A capture in a replacement. -/
def Cap.pieces (sub : List UInt8) : Cap → Pieces
  | .unclosed _ => []
  | .closed start len => rangePieces sub start len
  | .position start => [.ok (decimal (start + 1))]

/-- `%` and a byte in a replacement. -/
def escPieces (sub : List UInt8) (caps : List Cap) (sp stop : ℕ) (d : UInt8) : Pieces :=
  if d = chr '%' then [.ok [chr '%']]
  else if 48 ≤ d ∧ d ≤ 57 then
    let idx := d.toNat - 48
    if idx = 0 ∨ caps = [] ∧ idx = 1 then rangePieces sub sp (stop - sp)
    else match caps[idx - 1]? with
      | none => [.error "invalid replacement value"]
      | some c => c.pieces sub
  else [.ok [d]]

/-- A string as the replacement. -/
def textPieces (sub : List UInt8) (caps : List Cap) (sp stop : ℕ) : List UInt8 → Pieces
  | [] => []
  | [ch] => if ch = chr '%' then [] else [.ok [ch]]
  | ch :: d :: r =>
    if ch = chr '%' then escPieces sub caps sp stop d ++ textPieces sub caps sp stop r
    else .ok [ch] :: textPieces sub caps sp stop (d :: r)

/-- A value as the replacement. -/
def valuePieces (sub : List UInt8) (sp stop : ℕ) : Except String ReplVal → Pieces
  | .error msg => [.error msg]
  | .ok .keep => rangePieces sub sp (stop - sp)
  | .ok (.text x) => [.ok x]
  | .ok .other => [.error "invalid replacement value"]

/-- The replacement of a match. -/
def Repl.pieces (repl : Repl) (sub : List UInt8) (caps : List Cap) (count sp stop : ℕ) : Pieces :=
  match repl with
  | .str x => textPieces sub caps sp stop x
  | .table get =>
    match (wholeOr sub sp stop (caps.take 1)).bind List.head? with
    | none => []
    | some key => valuePieces sub sp stop (get count key)
  | .fn call =>
    match wholeOr sub sp stop caps with
    | none => []
    | some vs => valuePieces sub sp stop (call count vs)

/-- The first capture is closed, if there is one. -/
def FirstClosed (caps : List Cap) : Prop := ∀ c ∈ caps.take 1, c.Closed

/-- The captures whose values the replacement needs are closed. -/
def Repl.Needs (repl : Repl) (caps : List Cap) : Prop :=
  match repl with
  | .str _ => True
  | .table _ => FirstClosed caps
  | .fn _ => AllClosed caps

/-- All that a turn appends: the subject since the last match, the replacement, and the byte after an empty match. -/
def turnPieces (sub : List UInt8) (repl : Repl) (caps : List Cap) (lastEnd count sp stop : ℕ) : Pieces :=
  rangePieces sub lastEnd (sp - lastEnd) ++ repl.pieces sub caps count sp stop ++
    rangePieces sub sp (if stop = sp then min 1 (sub.length - sp) else 0)

variable {sub b : List UInt8} {repl : Repl} {arr : List ℤ} {caps : List Cap} {sp stop lastEnd count : ℕ}

/-! ## Appending -/

theorem appendAll_append (ps ps' : Pieces) :
    ∀ b, appendAll b (ps ++ ps') = appendAll b ps >>= fun b => appendAll b ps' := by
  induction ps with
  | nil => exact fun b => rfl
  | cons p ps ih =>
    intro b
    cases p with
    | error msg => rfl
    | ok x =>
      change (Pack.builderAppend b x >>= fun b => appendAll b (ps ++ ps')) =
        (Pack.builderAppend b x >>= fun b => appendAll b ps) >>= fun b => appendAll b ps'
      cases Pack.builderAppend b x with
      | error e => rfl
      | ok b' => exact ih b'

/-- The pieces up to the first error have room in the builder, or it traps. -/
theorem appendAll_eq (ps : Pieces) :
    ∀ b, b.length ≤ 2^30 → appendAll b ps =
      if 2^30 < b.length + ps.bytes.length then .error .stuck
      else match ps.raised with
        | some msg => raise msg
        | none => .ok (b ++ ps.bytes) := by
  induction ps with
  | nil =>
    intro b hb
    rw [if_neg (by simp [Pieces.bytes]; omega)]
    simp [appendAll, Pieces.bytes, Pieces.raised]
  | cons p ps ih =>
    intro b hb
    cases p with
    | error msg =>
      rw [if_neg (by simp [Pieces.bytes]; omega)]
      rfl
    | ok x =>
      have hlen : (Pieces.bytes (.ok x :: ps)).length = x.length + (Pieces.bytes ps).length := List.length_append
      have hraised : Pieces.raised (.ok x :: ps) = Pieces.raised ps := rfl
      rw [hlen, hraised]
      change (Pack.builderAppend b x >>= fun b => appendAll b ps) = _
      unfold Pack.builderAppend
      by_cases hroom : b.length + x.length ≤ 2^30
      · rw [if_pos hroom, Pack.ok_bind, ih _ (by simp; omega), List.length_append]
        by_cases hall : 2^30 < b.length + x.length + (Pieces.bytes ps).length
        · rw [if_pos hall, if_pos (by omega)]
        · rw [if_neg hall, if_neg (by omega), List.append_assoc]
          rfl
      · rw [if_neg hroom, if_pos (by omega)]
        rfl

theorem appendRange_eq {start len : ℤ} (h₀ : 0 ≤ start) (h₁ : start + len ≤ sub.length) :
    appendRange b sub start len = appendAll b (rangePieces sub start.toNat len.toNat) := by
  unfold appendRange rangePieces
  by_cases hlen : len ≤ 0
  · rw [if_pos hlen, if_pos (by omega)]
    rfl
  · rw [if_neg hlen, if_neg (by omega), strFromRange_ok h₀ (by omega) h₁]
    change Pack.builderAppend b _ = Pack.builderAppend b _ >>= fun b => .ok b
    cases Pack.builderAppend b ((sub.drop start.toNat).take len.toNat) with
    | error e => rfl
    | ok b' => rfl

theorem builderAppend_eq (b x : List UInt8) : Pack.builderAppend b x = appendAll b [.ok x] := by
  change Pack.builderAppend b x = Pack.builderAppend b x >>= fun b => .ok b
  cases Pack.builderAppend b x with
  | error e => rfl
  | ok b' => rfl

theorem whole_append (hsp : sp ≤ stop) (hstop : stop ≤ sub.length) :
    appendRange b sub sp (stop - sp) = appendAll b (rangePieces sub sp (stop - sp)) := by
  rw [appendRange_eq (by omega) (by omega), Int.toNat_natCast, show ((stop : ℤ) - sp).toNat = stop - sp by omega]

/-! ## Replacements -/

theorem appendCap_eq (hh : Holds arr caps) (hp : Placed sub stop caps) {i : ℕ} {c : Cap} (hc : caps[i]? = some c) :
    appendCap b sub arr i = appendAll b (c.pieces sub) := by
  have hle := hp.le
  have hwin := hp.within c (List.mem_of_getElem? hc)
  unfold appendCap
  rw [hh.starts i c hc, hh.codes i c hc]
  change (if c.code = -2 then Pack.builderAppend b (decimal (c.start + 1)) else appendRange b sub c.start c.code) = _
  cases c with
  | unclosed start =>
    have hcode : (Cap.unclosed start).code = -1 := rfl
    rw [hcode, if_neg (by omega)]
    unfold appendRange
    rw [if_pos (by omega)]
    rfl
  | closed start len =>
    unfold Cap.Within at hwin
    have hcode : (Cap.closed start len).code = (len : ℤ) := rfl
    have hstart : (Cap.closed start len).start = start := rfl
    rw [hcode, hstart, if_neg (by omega), appendRange_eq (by omega) (by omega)]
    rfl
  | position start => exact builderAppend_eq b _

/-- The loop over the bytes of a replacement. -/
theorem applyReplFrom_eq {x : List UInt8} (hh : Holds arr caps) (hp : Placed sub stop caps) (hsp : sp ≤ stop) :
    ∀ (fuel i : ℕ) (b : List UInt8), x.length - i < fuel →
      applyReplFrom x sub arr caps.length sp stop fuel i b = appendAll b (textPieces sub caps sp stop (x.drop i)) := by
  intro fuel
  induction fuel with
  | zero =>
    intro i b h
    omega
  | succ fuel ih =>
    intro i b h
    unfold applyReplFrom
    cases hx : x.drop i with
    | nil =>
      rw [if_pos (List.drop_eq_nil_iff.mp hx)]
      rfl
    | cons ch r =>
      obtain ⟨hget, hdrop, hlt, hlen⟩ := drop_cons hx
      rw [if_neg (Nat.not_le.mpr hlt), hget]
      change (if ch = chr '%' then _ else _) = _
      -- a byte that is itself
      have hplain : ∀ (y : UInt8), (Pack.builderAppend b [y] >>= fun b =>
          applyReplFrom x sub arr caps.length sp stop fuel (i + 1) b) =
          appendAll b (.ok [y] :: textPieces sub caps sp stop r) := by
        intro y
        change _ = Pack.builderAppend b [y] >>= fun b => appendAll b (textPieces sub caps sp stop r)
        congr 1
        funext b'
        rw [ih (i + 1) b' (by omega), hdrop]
      by_cases hch : ch = chr '%'
      · rw [if_pos hch]
        cases r with
        | nil =>
          rw [if_pos (by simp at hlen; omega)]
          unfold textPieces
          rw [if_pos hch]
          rfl
        | cons d r =>
          obtain ⟨hget', hdrop', hlt', -⟩ := drop_cons hdrop
          have hpieces : textPieces sub caps sp stop (ch :: d :: r) =
              escPieces sub caps sp stop d ++ textPieces sub caps sp stop r := by
            conv => lhs; unfold textPieces
            rw [if_pos hch]
          rw [if_neg (Nat.not_le.mpr hlt'), hget', hpieces, appendAll_append]
          change (if d = chr '%' then _ else _) = _
          have hnext : ∀ b', applyReplFrom x sub arr caps.length sp stop fuel (i + 2) b' =
              appendAll b' (textPieces sub caps sp stop r) := by
            intro b'
            rw [ih (i + 2) b' (by omega), hdrop']
          unfold escPieces
          by_cases hd : d = chr '%'
          · rw [if_pos hd, if_pos hd, ← builderAppend_eq]
            congr 1
            funext b'
            exact hnext b'
          rw [if_neg hd, if_neg hd]
          by_cases hdigit : 48 ≤ d ∧ d ≤ 57
          · rw [if_pos hdigit, if_pos hdigit]
            by_cases hzero : d.toNat - 48 = 0
            · rw [if_pos hzero, if_pos (Or.inl hzero), whole_append hsp hp.le]
              congr 1
              funext b'
              exact hnext b'
            rw [if_neg hzero]
            by_cases hmany : d.toNat - 48 > caps.length
            · rw [if_pos hmany]
              by_cases hone : caps.length = 0 ∧ d.toNat - 48 = 1
              · rw [if_pos hone, if_pos (Or.inr ⟨List.length_eq_zero_iff.mp hone.1, hone.2⟩), whole_append hsp hp.le]
                congr 1
                funext b'
                exact hnext b'
              · rw [if_neg hone, if_neg (by rw [← List.length_eq_zero_iff]; omega),
                  List.getElem?_eq_none (by omega)]
                rfl
            · rw [if_neg hmany, if_neg (by rw [← List.length_eq_zero_iff]; omega),
                List.getElem?_eq_getElem (by omega),
                appendCap_eq hh hp (List.getElem?_eq_getElem (by omega : d.toNat - 48 - 1 < caps.length))]
              congr 1
              funext b'
              exact hnext b'
          · rw [if_neg hdigit, if_neg hdigit, ← builderAppend_eq]
            congr 1
            funext b'
            exact hnext b'
      · rw [if_neg hch]
        have hpieces : textPieces sub caps sp stop (ch :: r) = .ok [ch] :: textPieces sub caps sp stop r := by
          cases r with
          | nil =>
            unfold textPieces
            rw [if_neg hch]
          | cons d r =>
            conv => lhs; unfold textPieces
            rw [if_neg hch]
        rw [hpieces]
        exact hplain ch

theorem appendReplResult_eq {v : ReplVal} (hsp : sp ≤ stop) (hstop : stop ≤ sub.length) :
    appendReplResult b v sub sp stop = appendAll b (valuePieces sub sp stop (.ok v)) := by
  cases v with
  | keep => exact whole_append hsp hstop
  | text x => exact builderAppend_eq b x
  | other => rfl

/-- An answer of the table or the function is appended. -/
theorem answer_eq {v : Except String ReplVal} (hsp : sp ≤ stop) (hstop : stop ≤ sub.length) :
    (orRaise v >>= fun v => appendReplResult b v sub sp stop) = appendAll b (valuePieces sub sp stop v) := by
  cases v with
  | error msg => rfl
  | ok v => exact appendReplResult_eq hsp hstop

/-- The key that a table is asked for. -/
theorem key_eq (hh : Holds arr caps) (hp : Placed sub stop caps) (hsp : sp ≤ stop) {f : PatVal → Except Fault (List UInt8)} :
    (do
      let key ←
        if caps.length = 0 then do
          let x ← strFromRange sub sp (stop - sp)
          pure (.str x)
        else capToValue sub arr 0
      f key) = orTrap ((wholeOr sub sp stop (caps.take 1)).bind List.head?) >>= f := by
  cases caps with
  | nil =>
    rw [if_pos List.length_nil, whole_eq hsp hp.le]
    rfl
  | cons c caps =>
    rw [if_neg (by simp), capToValue_eq hh hp (c := c) rfl]
    cases c with
    | unclosed start => rfl
    | closed start len => rfl
    | position start => rfl

theorem key_none : (wholeOr sub sp stop (caps.take 1)).bind List.head? = none ↔ ¬ FirstClosed caps := by
  have hfirst : FirstClosed caps ↔ AllClosed (caps.take 1) := Iff.rfl
  rw [hfirst, ← @wholeOr_none sub (caps.take 1) sp stop]
  cases caps with
  | nil => exact iff_of_false nofun nofun
  | cons c caps =>
    cases c with
    | unclosed start => exact iff_of_true rfl rfl
    | closed start len => exact iff_of_false nofun nofun
    | position start => exact iff_of_false nofun nofun

/-- A replacement that has the captures that it needs. -/
theorem applyRepl_eq (hh : Holds arr caps) (hp : Placed sub stop caps) (hsp : sp ≤ stop) (hneed : repl.Needs caps) :
    applyRepl repl sub b arr count caps.length sp stop = appendAll b (repl.pieces sub caps count sp stop) := by
  unfold applyRepl Repl.pieces
  cases repl with
  | str x => exact applyReplFrom_eq hh hp hsp (x.length + 1) 0 b (by omega)
  | table get =>
    dsimp only
    rw [key_eq hh hp hsp]
    cases hkey : (wholeOr sub sp stop (caps.take 1)).bind List.head? with
    | none => exact absurd hneed (key_none.mp hkey)
    | some key => exact answer_eq hsp hp.le
  | fn call =>
    rw [matchValues_eq hh hp hsp]
    cases hvs : wholeOr sub sp stop caps with
    | none => exact absurd hneed (wholeOr_none.mp hvs)
    | some vs => exact answer_eq hsp hp.le

/-- A replacement that needs the value of an open capture. -/
theorem applyRepl_stuck (hh : Holds arr caps) (hp : Placed sub stop caps) (hsp : sp ≤ stop)
    (hneed : ¬ repl.Needs caps) : applyRepl repl sub b arr count caps.length sp stop = .error .stuck := by
  unfold applyRepl
  cases repl with
  | str x => exact absurd trivial hneed
  | table get =>
    dsimp only
    rw [key_eq hh hp hsp, key_none.mpr hneed]
    rfl
  | fn call =>
    rw [matchValues_eq hh hp hsp, wholeOr_none.mpr hneed]
    rfl

/-- What the loop does with a match, before it goes on with the builder. -/
theorem turn_eq {f : List UInt8 → Except Fault GsubState} (hh : Holds arr caps) (hp : Placed sub stop caps)
    (hsp : sp ≤ stop) (hlast : lastEnd ≤ sp) (hneed : repl.Needs caps) :
    (do
      let b ← appendRange b sub lastEnd (sp - lastEnd)
      let b ← applyRepl repl sub b arr count caps.length sp stop
      let b ← if stop = sp ∧ sp < sub.length then do
          let c ← orTrap sub[sp]?
          Pack.builderAppend b [c]
        else pure b
      f b) = appendAll b (turnPieces sub repl caps lastEnd count sp stop) >>= f := by
  have hle := hp.le
  unfold turnPieces
  rw [appendAll_append, appendAll_append, appendRange_eq (by omega) (by omega), Int.toNat_natCast,
    show ((sp : ℤ) - lastEnd).toNat = sp - lastEnd by omega, bind_assoc, bind_assoc]
  congr 1
  funext b₁
  rw [applyRepl_eq hh hp hsp hneed]
  congr 1
  funext b₂
  by_cases hempty : stop = sp ∧ sp < sub.length
  · obtain ⟨rfl, hlt⟩ := hempty
    rw [if_pos ⟨rfl, hlt⟩, if_pos rfl, show min 1 (sub.length - stop) = 1 by omega, List.getElem?_eq_getElem hlt]
    unfold rangePieces
    rw [if_neg (by omega), List.drop_eq_getElem_cons hlt, ← builderAppend_eq]
    rfl
  · rw [if_neg hempty]
    unfold rangePieces
    rw [if_pos (by split <;> omega)]
    rfl

/-- A turn traps where the replacement needs the value of an open capture, if the rest has room. -/
theorem turn_stuck {f : List UInt8 → Except Fault GsubState} (hh : Holds arr caps) (hp : Placed sub stop caps)
    (hsp : sp ≤ stop) (hneed : ¬ repl.Needs caps) :
    (do
      let b ← appendRange b sub lastEnd (sp - lastEnd)
      let b ← applyRepl repl sub b arr count caps.length sp stop
      let b ← if stop = sp ∧ sp < sub.length then do
          let c ← orTrap sub[sp]?
          Pack.builderAppend b [c]
        else pure b
      f b) = .error .stuck := by
  have hle := hp.le
  rw [appendRange_eq (by omega) (by omega)]
  unfold rangePieces
  by_cases hgap : ((sp : ℤ) - lastEnd).toNat = 0
  · rw [if_pos hgap]
    change (applyRepl repl sub b arr count caps.length sp stop >>= _) = _
    rw [applyRepl_stuck hh hp hsp hneed]
    rfl
  · rw [if_neg hgap, ← builderAppend_eq]
    unfold Pack.builderAppend
    split
    · change (applyRepl repl sub _ arr count caps.length sp stop >>= _) = _
      rw [applyRepl_stuck hh hp hsp hneed]
      rfl
    · rfl

end Lua2wasm.Pattern
