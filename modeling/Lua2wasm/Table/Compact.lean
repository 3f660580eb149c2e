import Lua2wasm.Table.HashOk

/-!
# Compaction

`$tab_index_rebuild` moves the live entries of a private shape to its front, in their order, and
indexes them anew. The live entry at the position `p` goes to the position `countLive vals p`, the
number of live entries before it, which is never to the right of `p`. `Compacted` is the invariant
of the loop: the live entries seen so far are at their new places, and the others are where they
were. `tabIndexRebuild_spec` draws from it that the table is the same as a map, and that the new
index has room for one more entry.
-/

namespace Lua2wasm.Table

open Probe Raising

/-- The slot at a position of a value array. -/
def slotAt (vals : List Slot) (i : ℕ) : Slot := vals.getD i (.val .nil)

/-- The entry at a position is live. -/
def LiveAt (vals : List Slot) (i : ℕ) : Prop := (slotAt vals i).isNull = false

instance (vals : List Slot) (i : ℕ) : Decidable (LiveAt vals i) :=
  inferInstanceAs (Decidable ((slotAt vals i).isNull = false))

variable {vals : List Slot} {i j p q n mask : ℕ}

theorem countLive_succ (h : i < vals.length) :
    countLive vals (i + 1) = countLive vals i + (if (slotAt vals i).isNull then 0 else 1) := by
  unfold countLive slotAt
  rw [List.take_add_one, List.countP_append, List.getD_eq_getElem?_getD, List.getElem?_eq_getElem h]
  cases hnull : vals[i].isNull <;> simp [hnull]

theorem countLive_succ_live (h : i < vals.length) (hlive : LiveAt vals i) :
    countLive vals (i + 1) = countLive vals i + 1 := by
  rw [countLive_succ h, if_neg (by unfold LiveAt at hlive; simp [hlive])]

theorem countLive_succ_dead (h : i < vals.length) (hdead : ¬ LiveAt vals i) :
    countLive vals (i + 1) = countLive vals i := by
  rw [countLive_succ h, if_pos (by unfold LiveAt at hdead; simpa using hdead), Nat.add_zero]

theorem countLive_le (i : ℕ) : countLive vals i ≤ i := by
  unfold countLive
  calc (vals.take i).countP _ ≤ (vals.take i).length := List.countP_le_length
    _ ≤ i := List.length_take_le i vals

theorem countLive_mono (h : i ≤ j) : countLive vals i ≤ countLive vals j := by
  unfold countLive
  have hsub : (vals.take i).Sublist (vals.take j) := (List.take_prefix_take_left h).sublist
  exact hsub.countP_le

/-- Live entries have different new places. -/
theorem countLive_lt (hp : LiveAt vals p) (hpq : p < q) (hlen : p < vals.length) :
    countLive vals p < countLive vals q := by
  have hsucc := countLive_succ_live hlen hp
  have hmono : countLive vals (p + 1) ≤ countLive vals q := countLive_mono hpq
  omega

/-- As long as all entries are live, they stay where they are. -/
theorem countLive_eq (hn : n ≤ vals.length) (hlive : ∀ p < n, LiveAt vals p) : countLive vals n = n := by
  induction n with
  | zero => exact Nat.le_zero.mp (countLive_le 0)
  | succ n ih =>
    rw [countLive_succ_live (by omega) (hlive n (Nat.lt_succ_self n)),
      ih (by omega) fun p hp => hlive p (by omega)]

/-- If no entry was dropped, all were live. -/
theorem live_of_countLive (hn : n ≤ vals.length) (hcount : countLive vals n = n) (hp : p < n) :
    LiveAt vals p := by
  by_contra hdead
  have hskip := countLive_succ_dead (show p < vals.length by omega) hdead
  have hrest : ∀ q, p + 1 ≤ q → q ≤ n → countLive vals q + 1 ≤ q := by
    intro q hpq
    induction q, hpq using Nat.le_induction with
    | base =>
      intro _
      have hle : countLive vals p ≤ p := countLive_le p
      omega
    | succ q hpq ih =>
      intro hq
      rw [countLive_succ (by omega)]
      split <;> omega
  have hlast := hrest n hp (Nat.le_refl n)
  omega

/-- Every place at the front is the new place of a live entry. -/
theorem exists_live_of_lt : ∀ {i : ℕ}, i ≤ vals.length → ∀ {r : ℕ}, r < countLive vals i →
    ∃ p < i, LiveAt vals p ∧ countLive vals p = r := by
  intro i
  induction i with
  | zero =>
    intro _ r hr
    have hle : countLive vals 0 ≤ 0 := countLive_le 0
    omega
  | succ i ih =>
    intro hi r hr
    by_cases hlt : r < countLive vals i
    · obtain ⟨p, hp, hlive, hcount⟩ := ih (by omega) hlt
      exact ⟨p, by omega, hlive, hcount⟩
    · by_cases hlive : LiveAt vals i
      · have hsucc := countLive_succ_live (show i < vals.length by omega) hlive
        exact ⟨i, Nat.lt_succ_self i, hlive, by omega⟩
      · have hsucc := countLive_succ_dead (show i < vals.length by omega) hlive
        omega

/-- The invariant of the loop of `$tab_index_rebuild`, when the entries before `i` have been seen. -/
structure Compacted (keys : List Val) (vals : List Slot) (fvals : Option (List F64)) (mask i : ℕ)
    (c : Compaction) : Prop where
  /-- So many live entries were seen. -/
  j : c.j = countLive vals i
  /-- The arrays keep their lengths. -/
  keysLen : c.keys.length = keys.length
  valsLen : c.vals.length = vals.length
  fvalsLen : c.fvals.map List.length = fvals.map List.length
  /-- The entries that were not seen are where they were. -/
  keysRest : ∀ p, i ≤ p → c.keys.getD p .nil = keys.getD p .nil
  valsRest : ∀ p, i ≤ p → slotAt c.vals p = slotAt vals p
  fvalsRest : ∀ p, i ≤ p → (c.fvals.getD []).getD p fzero = (fvals.getD []).getD p fzero
  /-- The live entries that were seen are at their new places. -/
  keysLive : ∀ p < i, LiveAt vals p → c.keys.getD (countLive vals p) .nil = keys.getD p .nil
  valsLive : ∀ p < i, LiveAt vals p → slotAt c.vals (countLive vals p) = slotAt vals p
  fvalsLive : ∀ p < i, LiveAt vals p →
    (c.fvals.getD []).getD (countLive vals p) fzero = (fvals.getD []).getD p fzero
  /-- And they are in the index. -/
  indexed : Indexed c.idx mask (fun q => home mask (luaHash (c.keys.getD q .nil))) c.j

variable {keys : List Val} {fvals : Option (List F64)} {c : Compaction}

/-- An element moved down to a place that nothing else has. -/
theorem getD_set_move {α : Type} {a a₀ : List α} {w : α} (hlen : a.length = a₀.length)
    (hi : i < a₀.length) (hji : j ≤ i) (hrest : ∀ p, i ≤ p → a.getD p w = a₀.getD p w) :
    (a.set j (a.getD i w)).length = a₀.length ∧
      (∀ p, i + 1 ≤ p → (a.set j (a.getD i w)).getD p w = a₀.getD p w) ∧
      (∀ p, p < j → (a.set j (a.getD i w)).getD p w = a.getD p w) ∧
      (a.set j (a.getD i w)).getD j w = a₀.getD i w := by
  refine ⟨by rw [List.length_set, hlen], fun p hp => ?_, fun p hp => ?_, ?_⟩
  · rw [getD_set (by omega), if_neg (by omega)]
    exact hrest p (by omega)
  · rw [getD_set (by omega), if_neg (by omega)]
  · rw [getD_set (by omega), if_pos rfl]
    exact hrest i (Nat.le_refl i)

/-- Writing an element where it already is. -/
theorem set_getD_self {α : Type} {a : List α} {w : α} (h : i < a.length) : a.set i (a.getD i w) = a := by
  apply List.ext_getElem?
  intro p
  by_cases hp : p = i
  · rw [hp, List.getElem?_set_self h, getElem?_of_lt h]
  · rw [List.getElem?_set_ne (Ne.symm hp)]

/-- A move writes the entry to the front of each array. -/
theorem Compaction.move_eq (hk : i < c.keys.length) (hv : i < c.vals.length)
    (hf : ∀ fa, c.fvals = some fa → i < fa.length) (hj : c.j ≤ i) :
    c.move i = some { c with
      keys := c.keys.set c.j (c.keys.getD i .nil)
      vals := c.vals.set c.j (slotAt c.vals i)
      fvals := c.fvals.map fun fa => fa.set c.j (fa.getD i fzero) } := by
  unfold Compaction.move
  split
  · rename_i heq
    obtain ⟨keys, vals, fvals, idx, j⟩ := c
    subst heq
    unfold slotAt
    rw [set_getD_self hk, set_getD_self hv]
    cases fvals with
    | none => rfl
    | some fa => rw [Option.map_some, set_getD_self (hf fa rfl)]
  · simp only [getElem?_of_lt (w := Val.nil) hk, getElem?_of_lt (w := Slot.val .nil) hv,
      Option.bind_eq_bind, Option.bind_some]
    rw [setAt_of_lt (by omega), setAt_of_lt (by omega)]
    cases hfa : c.fvals with
    | none => simp only [Option.bind_some]; rfl
    | some fa =>
      have hlt := hf fa hfa
      simp only [getElem?_of_lt (w := fzero) hlt, Option.bind_some]
      rw [setAt_of_lt (by omega)]
      rfl

/-- A dead entry is passed over. -/
theorem Compacted.skip (h : Compacted keys vals fvals mask i c) (hi : i < vals.length)
    (hdead : ¬ LiveAt vals i) : Compacted keys vals fvals mask (i + 1) c where
  j := h.j.trans (countLive_succ_dead hi hdead).symm
  keysLen := h.keysLen
  valsLen := h.valsLen
  fvalsLen := h.fvalsLen
  keysRest p hp := h.keysRest p (by omega)
  valsRest p hp := h.valsRest p (by omega)
  fvalsRest p hp := h.fvalsRest p (by omega)
  keysLive p hp hlive := by
    have hne : p ≠ i := fun heq => hdead (heq ▸ hlive)
    exact h.keysLive p (by omega) hlive
  valsLive p hp hlive := by
    have hne : p ≠ i := fun heq => hdead (heq ▸ hlive)
    exact h.valsLive p (by omega) hlive
  fvalsLive p hp hlive := by
    have hne : p ≠ i := fun heq => hdead (heq ▸ hlive)
    exact h.fvalsLive p (by omega) hlive
  indexed := h.indexed

/-- A live entry is moved to the front and entered in the index. -/
theorem Compacted.keep (h : Compacted keys vals fvals mask i c) (hi : i < vals.length)
    (hk : i < keys.length) (hf : ∀ fa, fvals = some fa → fa.length = vals.length)
    (hlive : LiveAt vals i) (hmask : c.j + 1 ≤ mask) :
    ∃ c₁ idx, c.move i = some c₁ ∧ c₁.j = c.j ∧ c₁.j < c₁.keys.length ∧
      place c₁.idx mask ((c₁.j : ℤ) + 1) (mask + 1)
        (home mask (luaHash (c₁.keys.getD c₁.j .nil))) = some idx ∧
      Compacted keys vals fvals mask (i + 1) { c₁ with idx, j := c₁.j + 1 } := by
  have hji : c.j ≤ i := by
    rw [h.j]
    exact countLive_le i
  have hkl := h.keysLen
  have hvl := h.valsLen
  have hfl : ∀ fa, c.fvals = some fa → ∃ fa₀, fvals = some fa₀ ∧ fa.length = fa₀.length := by
    intro fa hfa
    have hmap := h.fvalsLen
    rw [hfa] at hmap
    cases hf₀ : fvals with
    | none => simp [hf₀] at hmap
    | some fa₀ => exact ⟨fa₀, rfl, by simpa [hf₀] using hmap⟩
  have hflt : ∀ fa, c.fvals = some fa → i < fa.length := by
    intro fa hfa
    obtain ⟨fa₀, hfa₀, hlen⟩ := hfl fa hfa
    have := hf fa₀ hfa₀
    omega
  obtain ⟨hk1, hk2, hk3, hk4⟩ :=
    getD_set_move (w := Val.nil) hkl hk hji h.keysRest
  obtain ⟨hv1, hv2, hv3, hv4⟩ :=
    getD_set_move (w := Slot.val .nil) hvl hi hji h.valsRest
  -- the doubles move along, when there are any
  obtain ⟨fd, hfd, hf1, hf2, hf3, hf4⟩ : ∃ fd, fd = c.fvals.map (fun fa => fa.set c.j (fa.getD i fzero)) ∧
      fd.map List.length = fvals.map List.length ∧
      (∀ p, i + 1 ≤ p → (fd.getD []).getD p fzero = (fvals.getD []).getD p fzero) ∧
      (∀ p, p < c.j → (fd.getD []).getD p fzero = (c.fvals.getD []).getD p fzero) ∧
      (fd.getD []).getD c.j fzero = (fvals.getD []).getD i fzero := by
    refine ⟨_, rfl, ?_⟩
    cases hfa : c.fvals with
    | none =>
      have hnone : fvals = none := by
        have hmap := h.fvalsLen
        rw [hfa] at hmap
        simpa using hmap.symm
      rw [hnone]
      exact ⟨rfl, fun p _ => rfl, fun p _ => rfl, rfl⟩
    | some fa =>
      obtain ⟨fa₀, hfa₀, hlen⟩ := hfl fa hfa
      have hrest := h.fvalsRest
      rw [hfa, hfa₀] at hrest
      have hlt : i < fa₀.length := by
        rw [hf fa₀ hfa₀]
        exact hi
      obtain ⟨h1, h2, h3, h4⟩ := getD_set_move (w := fzero) hlen hlt hji hrest
      rw [hfa₀]
      exact ⟨by simp [hlen], h2, h3, h4⟩
  have hmove := Compaction.move_eq (c := c) (i := i) (by omega) (by omega) hflt hji
  rw [← hfd] at hmove
  have hhomes : Indexed c.idx mask
      (fun q => home mask (luaHash ((c.keys.set c.j (c.keys.getD i .nil)).getD q .nil))) c.j := by
    apply h.indexed.congr
    intro q hq
    rw [hk3 q hq]
  obtain ⟨idx, hplace, hidx⟩ := hhomes.place home_le hmask
  refine ⟨_, idx, hmove, rfl, ?_, hplace, ?_⟩
  · change c.j < (c.keys.set c.j _).length
    omega
  · have hnew : ∀ p < i + 1, LiveAt vals p → countLive vals p < c.j ∧ p < i ∨ p = i := by
      intro p hp hpl
      obtain hlt | rfl := Nat.lt_succ_iff_lt_or_eq.mp hp
      · have hcount := countLive_lt hpl hlt (by omega)
        have hj := h.j
        exact Or.inl ⟨by omega, hlt⟩
      · exact Or.inr rfl
    constructor
    · change c.j + 1 = _
      rw [countLive_succ_live hi hlive, h.j]
    · exact hk1
    · exact hv1
    · exact hf1
    · exact hk2
    · exact hv2
    · exact hf2
    · intro p hp hpl
      obtain ⟨hlt, hpi⟩ | rfl := hnew p hp hpl
      · exact (hk3 _ hlt).trans (h.keysLive p hpi hpl)
      · rw [← h.j]
        exact hk4
    · intro p hp hpl
      obtain ⟨hlt, hpi⟩ | rfl := hnew p hp hpl
      · exact (hv3 _ hlt).trans (h.valsLive p hpi hpl)
      · rw [← h.j]
        exact hv4
    · intro p hp hpl
      obtain ⟨hlt, hpi⟩ | rfl := hnew p hp hpl
      · exact (hf3 _ hlt).trans (h.fvalsLive p hpi hpl)
      · rw [← h.j]
        exact hf4
    · exact hidx

/-- The loop of `$tab_index_rebuild` sees the rest of the entries. -/
theorem compact_spec (hf : ∀ fa, fvals = some fa → fa.length = vals.length) :
    ∀ (todo i : ℕ) (c : Compaction), Compacted keys vals fvals mask i c →
      i + todo ≤ vals.length → i + todo ≤ keys.length → countLive vals (i + todo) ≤ mask →
      ∃ c', compact mask todo i c = some c' ∧ Compacted keys vals fvals mask (i + todo) c' := by
  intro todo
  induction todo with
  | zero =>
    intro i c h _ _ _
    exact ⟨c, rfl, h⟩
  | succ todo ih =>
    intro i c h hvals hkeys hmask
    have hi : i < vals.length := by omega
    have hget : c.vals[i]? = some (slotAt vals i) := by
      rw [← h.valsRest i (Nat.le_refl i)]
      exact getElem?_of_lt (by have := h.valsLen; omega)
    have hsum : i + 1 + todo = i + (todo + 1) := by omega
    by_cases hlive : LiveAt vals i
    · have hcount : c.j + 1 ≤ mask := by
        have hsucc := countLive_succ_live hi hlive
        have hmono : countLive vals (i + 1) ≤ countLive vals (i + (todo + 1)) :=
          countLive_mono (by omega)
        have hj := h.j
        omega
      obtain ⟨c₁, idx, hmove, -, hlt, hplace, h₁⟩ := h.keep hi (by omega) hf hlive hcount
      obtain ⟨c', hrest, h'⟩ := ih (i + 1) _ h₁ (by omega) (by omega) (by rw [hsum]; exact hmask)
      refine ⟨c', ?_, by rw [← hsum]; exact h'⟩
      rw [compact, hget]
      simp only [Option.bind_eq_bind, Option.bind_some]
      rw [if_neg (by unfold LiveAt at hlive; simp [hlive]), hmove]
      simp only [Option.bind_some]
      rw [getElem?_of_lt (w := Val.nil) hlt]
      simp only [Option.bind_some]
      rw [hplace]
      exact hrest
    · obtain ⟨c', hrest, h'⟩ := ih (i + 1) c (h.skip hi hlive) (by omega) (by omega)
        (by rw [hsum]; exact hmask)
      refine ⟨c', ?_, by rw [← hsum]; exact h'⟩
      rw [compact, hget]
      simp only [Option.bind_eq_bind, Option.bind_some]
      rw [if_pos (by unfold LiveAt at hlive; simpa using hlive)]
      exact hrest

/-- Clearing the tail of an array. -/
theorem arrayFill_spec {α : Type} {a : List α} {w : α} (h : i + n ≤ a.length) :
    ∃ a', arrayFill a i w n = some a' ∧ a'.length = a.length ∧ ∀ q < i, a'.getD q w = a.getD q w := by
  refine ⟨a.take i ++ List.replicate n w ++ a.drop (i + n), ?_, ?_, ?_⟩
  · unfold arrayFill arrayCopy
    rw [if_pos ⟨h, by simp⟩]
    simp
  · simp
    omega
  · intro q hq
    rw [List.getD_eq_getElem?_getD, List.getD_eq_getElem?_getD, List.append_assoc,
      List.getElem?_append_left (by simp; omega), List.getElem?_take_of_lt hq]

/-- The result of `$tab_index_rebuild` on a table with a value array. -/
structure Rebuilt (sh : Shape) (vals : List Slot) (fvals : Option (List F64)) (mask : ℕ)
    (c : Compaction) : Prop where
  /-- The number of live entries. -/
  j : c.j = countLive vals sh.n
  /-- The arrays keep their lengths. -/
  keysLen : c.keys.length = sh.keys.length
  valsLen : c.vals.length = vals.length
  fvalsLen : c.fvals.map List.length = fvals.map List.length
  /-- The live entries are at their new places. -/
  live : ∀ p < sh.n, LiveAt vals p → c.keys.getD (countLive vals p) .nil = sh.key p ∧
    slotAt c.vals (countLive vals p) = slotAt vals p ∧
    (c.fvals.getD []).getD (countLive vals p) fzero = (fvals.getD []).getD p fzero
  /-- And they are in the index. -/
  indexed : Indexed c.idx mask (fun q => home mask (luaHash (c.keys.getD q .nil))) c.j

theorem rebuild_spec {sh : Shape} (hkeys : sh.n ≤ sh.keys.length) (hvals : sh.n ≤ vals.length)
    (hf : ∀ fa, fvals = some fa → fa.length = vals.length) :
    ∃ c, rebuild sh vals fvals = some c ∧
      Rebuilt sh vals fvals (indexCap (countLive vals sh.n) - 1) c := by
  obtain ⟨hcap, h8, b, hb⟩ := indexCap_spec (countLive vals sh.n)
  have hmask : indexCap (countLive vals sh.n) - 1 + 1 = indexCap (countLive vals sh.n) := by omega
  have hstart : Compacted sh.keys vals fvals (indexCap (countLive vals sh.n) - 1) 0
      { keys := sh.keys, vals, fvals, idx := List.replicate (indexCap (countLive vals sh.n)) 0, j := 0 } := by
    refine ⟨?_, rfl, rfl, rfl, fun p _ => rfl, fun p _ => rfl, fun p _ => rfl, ?_, ?_, ?_, ?_⟩
    · have hle : countLive vals 0 ≤ 0 := countLive_le 0
      change 0 = countLive vals 0
      omega
    · exact fun p hp => absurd hp (Nat.not_lt_zero p)
    · exact fun p hp => absurd hp (Nat.not_lt_zero p)
    · exact fun p hp => absurd hp (Nat.not_lt_zero p)
    · rw [← hmask]
      exact Indexed.empty ⟨b, by omega⟩
  obtain ⟨c, hcompact, hc⟩ := compact_spec hf sh.n 0 _ hstart (by omega) (by omega)
    (by rw [Nat.zero_add]; omega)
  rw [Nat.zero_add] at hc
  have hj := hc.j
  have hjn : countLive vals sh.n ≤ sh.n := countLive_le sh.n
  have hkl := hc.keysLen
  have hvl := hc.valsLen
  obtain ⟨keys', hk', hk'len, hk'get⟩ :=
    arrayFill_spec (w := Val.nil) (show c.j + (sh.n - c.j) ≤ c.keys.length by omega)
  obtain ⟨vals', hv', hv'len, hv'get⟩ :=
    arrayFill_spec (w := Slot.val .nil) (show c.j + (sh.n - c.j) ≤ c.vals.length by omega)
  refine ⟨{ c with keys := keys', vals := vals' }, ?_, hj, ?_, ?_, hc.fvalsLen, ?_, ?_⟩
  · unfold rebuild
    simp only [hcompact, hk', hv', Option.bind_eq_bind, Option.bind_some]
    rfl
  · exact hk'len.trans hkl
  · exact hv'len.trans hvl
  · intro p hp hlive
    have hlt : countLive vals p < c.j := by
      have := countLive_lt hlive hp (by omega)
      omega
    exact ⟨(hk'get _ hlt).trans (hc.keysLive p hp hlive),
      (hv'get _ hlt).trans (hc.valsLive p hp hlive), hc.fvalsLive p hp hlive⟩
  · apply hc.indexed.congr
    intro q hq
    change home _ (luaHash (keys'.getD q .nil)) = _
    rw [hk'get q hq]

/-- The shape after a rebuild. -/
def Compaction.shape (c : Compaction) (mask : ℕ) : Shape where
  keys := c.keys
  idx := c.idx
  mask := mask
  n := c.j
  used := c.j

/-- A rebuild before the next entry would drop nothing. -/
def Settled (s : TabState) (sh : Shape) : Prop :=
  2 * (sh.n + 1) < sh.mask + 1 ∨ ∀ p < sh.n, s.t.value p ≠ .nil

/-- What a rebuild does to the room of the table. If it drops nothing, it moves nothing. -/
structure Rearranged (s s' : TabState) (sh sh' : Shape) : Prop where
  /-- The arrays keep their lengths. -/
  keysLen : sh'.keys.length = sh.keys.length
  valsLen : lengthOf s'.t.vals = lengthOf s.t.vals
  /-- The entries stay if none is dropped. -/
  entries : sh'.n = sh.n → SameEntries s s'
  /-- The next rebuild drops nothing either. -/
  settled : sh'.n = sh.n → Settled s' sh'
  /-- None is dropped exactly from a table that is settled. -/
  kept : sh'.n = sh.n ↔ Settled s sh

section Rebuilt

variable {s s' : TabState} {sh : Shape}

/-- Every key after a rebuild is the key of a live entry. -/
theorem Rebuilt.front (h : Rebuilt sh vals fvals mask c) (hvlen : sh.n ≤ vals.length) (hq : q < c.j) :
    ∃ p < sh.n, LiveAt vals p ∧ countLive vals p = q ∧ (c.shape mask).key q = sh.key p := by
  rw [h.j] at hq
  obtain ⟨p, hp, hlive, hcount⟩ := exists_live_of_lt hvlen hq
  refine ⟨p, hp, hlive, hcount, ?_⟩
  rw [← hcount]
  exact (h.live p hp hlive).1

theorem Rebuilt.shapeWf (h : Rebuilt sh vals fvals mask c) (wf : ShapeWf sh)
    (hvlen : sh.n ≤ vals.length) (hmask : 2 * (c.j + 1) ≤ mask + 1) (h8 : 8 ≤ mask + 1) :
    ShapeWf (c.shape mask) := by
  have hj := h.j
  have hjn : countLive vals sh.n ≤ sh.n := countLive_le sh.n
  constructor
  · change c.j ≤ c.keys.length
    have hroom := wf.room
    have hkl := h.keysLen
    omega
  · intro q hq
    obtain ⟨p, hp, -, -, hkey⟩ := h.front hvlen hq
    rw [hkey]
    exact wf.normal p hp
  · intro q hq r hr hcanon
    obtain ⟨p, hp, -, hpq, hkey⟩ := h.front hvlen hq
    obtain ⟨p', hp', -, hpr, hkey'⟩ := h.front hvlen hr
    rw [hkey, hkey'] at hcanon
    rw [← hpq, ← hpr, wf.distinct p hp p' hp' hcanon]
  · rfl
  · change 2 * c.j ≤ mask + 1
    omega
  · exact h8
  · exact h.indexed

/-- A live entry has its new place as its position. -/
theorem Rebuilt.pos_live (h : Rebuilt sh vals fvals mask c) (hwf : ShapeWf (c.shape mask))
    (hvlen : sh.n ≤ vals.length) {key : Key} (hp : sh.pos key = some p) (hlive : LiveAt vals p) :
    (c.shape mask).pos key = some (countLive vals p) := by
  have hlt := Shape.pos_lt hp
  apply hwf.pos_of_canon
  · change countLive vals p < c.j
    rw [h.j]
    exact countLive_lt hlive hlt (by omega)
  · change canon (c.keys.getD (countLive vals p) .nil) = some key
    rw [(h.live p hlt hlive).1]
    exact Shape.canon_key_of_pos hp

/-- A key with no live entry has none after the rebuild. -/
theorem Rebuilt.pos_none (h : Rebuilt sh vals fvals mask c) (wf : ShapeWf sh)
    (hvlen : sh.n ≤ vals.length) {key : Key} (hdead : ∀ p, sh.pos key = some p → ¬ LiveAt vals p) :
    (c.shape mask).pos key = none := by
  rw [Shape.pos_eq_none]
  intro q hq hcanon
  obtain ⟨p, hp, hlive, -, hkey⟩ := h.front hvlen hq
  rw [hkey] at hcanon
  exact hdead p (wf.pos_of_canon hp hcanon) hlive

theorem slot_eq_slotAt (hvals : s.t.vals = some vals) (p : ℕ) : s.t.slot p = slotAt vals p := by
  unfold LuaTable.slot slotAt
  rw [hvals]
  rfl

theorem value_eq_of_slot {t : LuaTable} (hv : t.slot q = s.t.slot p)
    (hf : (t.fvals.getD []).getD q fzero = (s.t.fvals.getD []).getD p fzero) :
    t.value q = s.t.value p := by
  unfold LuaTable.value
  rw [hv, hf]

theorem value_of_dead (hvals : s.t.vals = some vals) (hdead : ¬ LiveAt vals p) : s.t.value p = .nil := by
  have hnull : slotAt vals p = .val .nil := by
    unfold LiveAt Slot.isNull at hdead
    simpa using hdead
  unfold LuaTable.value
  rw [slot_eq_slotAt hvals, hnull]

theorem liveAt_iff (hvals : s.t.vals = some vals) : LiveAt vals p ↔ s.t.value p ≠ .nil := by
  constructor
  · intro hlive hv
    unfold LiveAt at hlive
    unfold LuaTable.value at hv
    rw [slot_eq_slotAt hvals] at hv
    generalize slotAt vals p = w at hlive hv
    cases w with
    | mark => cases hv
    | val v =>
      obtain rfl : v = .nil := hv
      cases hlive
  · intro hv
    by_contra hdead
    exact hv (value_of_dead hvals hdead)

/-- A rebuild keeps the room, and moves an entry only if it drops another. -/
theorem Rebuilt.rearranged (hok : HashOk s sh none) (hvals : s.t.vals = some vals)
    (h : Rebuilt sh vals s.t.fvals mask c) (hfull : sh.mask + 1 ≤ 2 * (sh.n + 1))
    (hs' : s' = { s with t := { s.t with
      shape := .own (c.shape mask), vals := some c.vals, fvals := c.fvals } }) :
    Rearranged s s' sh (c.shape mask) := by
  have hvlen := hok.vals
  rw [hvals, lengthOf_some] at hvlen
  have hj : (c.shape mask).n = countLive vals sh.n := h.j
  have hshape' : s'.shape = some (c.shape mask) := by
    rw [hs']
    rfl
  have hlive : (c.shape mask).n = sh.n → ∀ p < sh.n, LiveAt vals p := by
    intro hn p hp
    exact live_of_countLive hvlen (hj.symm.trans hn) hp
  have hplace : (c.shape mask).n = sh.n → ∀ p < sh.n,
      (c.shape mask).key p = sh.key p ∧ s'.t.value p = s.t.value p := by
    intro hn p hp
    have hcount : countLive vals p = p :=
      countLive_eq (by omega) fun q hq => hlive hn q (by omega)
    obtain ⟨hk, hv, hf⟩ := h.live p hp (hlive hn p hp)
    rw [hcount] at hk hv hf
    refine ⟨hk, value_eq_of_slot ?_ ?_⟩
    · rw [slot_eq_slotAt hvals, ← hv, hs']
      rfl
    · rw [← hf, hs']
  constructor
  · exact h.keysLen
  · rw [hs', hvals]
    exact h.valsLen
  · intro hn
    exact sameEntries_of_keys hok.shape hshape' hn (fun p hp => (hplace hn p hp).1)
      fun p hp => (hplace hn p hp).2
  · intro hn
    right
    intro p hp
    rw [hn] at hp
    rw [(hplace hn p hp).2]
    exact (liveAt_iff hvals).mp (hlive hn p hp)
  · constructor
    · exact fun hn => Or.inr fun p hp => (liveAt_iff hvals).mp (hlive hn p hp)
    · rintro (hroom | hall)
      · omega
      · rw [hj]
        exact countLive_eq hvlen fun p hp => (liveAt_iff hvals).mpr (hall p hp)

/-- The table after a rebuild is the same as a map. -/
theorem Rebuilt.result (hok : HashOk s sh none) (hown : s.t.shape = .own sh)
    (hvals : s.t.vals = some vals) (h : Rebuilt sh vals s.t.fvals mask c)
    (hmask : 2 * (c.j + 1) ≤ mask + 1) (h8 : 8 ≤ mask + 1)
    (hs' : s' = { s with t := { s.t with
      shape := .own (c.shape mask), vals := some c.vals, fvals := c.fvals } }) :
    Unchanged s s' ∧ HashOk s' (c.shape mask) none := by
  have h4 := hok.own sh hown
  have hlens := hok.vals
  rw [hvals] at hlens
  have hvlen : sh.n ≤ vals.length := hlens
  have hj := h.j
  have hjn : countLive vals sh.n ≤ sh.n := countLive_le sh.n
  have hvl := h.valsLen
  have hkl := h.keysLen
  have hwf := h.shapeWf hok.wf hvlen hmask h8
  have hshape' : s'.shape = some (c.shape mask) := by
    rw [hs']
    rfl
  have hslot' : ∀ q, s'.t.slot q = slotAt c.vals q := fun q => by
    rw [hs']
    rfl
  have hfvals' : s'.t.fvals = c.fvals := by rw [hs']
  refine ⟨⟨⟨by rw [hs']; exact Grows.refl, by rw [hs'], by rw [hs'], by rw [hs']⟩, ?_, ?_, ?_⟩,
    by rw [hs']; exact hok.shapes, hshape', hwf, ?_, ?_, ?_, ?_, ?_⟩
  -- a key has its old value: absent, live or dead before
  · intro key
    rw [hget_of_shape hok.shape]
    cases hp : sh.pos key with
    | none =>
      refine hget_of_absent hshape' (h.pos_none hok.wf hvlen fun p hp' => ?_)
      rw [hp] at hp'
      cases hp'
    | some p =>
      by_cases hlive : LiveAt vals p
      · rw [hget_of_pos hshape' (h.pos_live hwf hvlen hp hlive)]
        obtain ⟨-, hv, hf⟩ := h.live p (Shape.pos_lt hp) hlive
        refine value_eq_of_slot ?_ ?_
        · rw [hslot', slot_eq_slotAt hvals, hv]
        · rw [hfvals', hf]
      · -- a dead entry is dropped, and its value was nil
        refine (hget_of_absent hshape' (h.pos_none hok.wf hvlen fun p' hp' => ?_)).trans
          (value_of_dead hvals hlive).symm
        rw [hp] at hp'
        cases hp'
        exact hlive
  · intro sh₁ sh₁' h₁ h₁' key hp
    rw [hok.shape] at h₁
    rw [hshape'] at h₁'
    cases h₁
    cases h₁'
    refine h.pos_none hok.wf hvlen fun p hp' => ?_
    rw [hp] at hp'
    cases hp'
  · intro sh₁ sh₁' h₁ h₁'
    rw [hok.shape] at h₁
    rw [hshape'] at h₁'
    cases h₁
    cases h₁'
    change c.j ≤ sh.n
    omega
  · rw [hs']
    change c.j ≤ c.vals.length
    omega
  · have hsmall := hok.small
    rw [hvals, lengthOf_some] at hsmall
    rw [hs']
    change c.vals.length ≤ valsMax
    omega
  · intro fa hfa
    rw [hfvals'] at hfa
    have hmap := h.fvalsLen
    rw [hfa] at hmap
    have hlen' : lengthOf s'.t.vals = c.vals.length := by rw [hs']; rfl
    cases hf₀ : s.t.fvals with
    | none => simp [hf₀] at hmap
    | some fa₀ =>
      have hlen : fa.length = fa₀.length := by simpa [hf₀] using hmap
      have hlen₀ := hok.fvals fa₀ hf₀
      rw [hvals, lengthOf_some] at hlen₀
      omega
  · intro q hq _ hmark hnone
    obtain ⟨p, hp, hlive, hcount, -⟩ := h.front hvlen hq
    rw [hslot', ← hcount, (h.live p hp hlive).2.1, ← slot_eq_slotAt hvals] at hmark
    apply hok.marked p hp (by simp) hmark
    have hmap := h.fvalsLen
    rw [hfvals'] at hnone
    rw [hnone] at hmap
    simpa using hmap.symm
  · intro sh₁ h₁
    rw [hs'] at h₁
    cases h₁
    change 4 ≤ c.keys.length
    omega

end Rebuilt

/-- `$tab_index_rebuild` leaves the table the same as a map, and makes room in the index. -/
theorem tabIndexRebuild_spec {s : TabState} {sh : Shape} (hok : HashOk s sh none)
    (hown : s.t.shape = .own sh) (hfull : sh.mask + 1 ≤ 2 * (sh.n + 1)) :
    Ensures tabIndexRebuild s
      (fun _ s' => Unchanged s s' ∧ ∃ sh', s'.t.shape = .own sh' ∧ HashOk s' sh' none ∧
        2 * (sh'.n + 1) ≤ sh'.mask + 1 ∧ Rearranged s s' sh sh') := by
  have h4 := hok.own sh hown
  have hroom := hok.wf.room
  have hle := hok.vals
  unfold tabIndexRebuild
  apply meets_getOwnShape hown
  apply meets_get_bind
  dsimp only
  cases hvals : s.t.vals with
  | none =>
    -- without values there are no keys
    rw [hvals] at hle
    have hn : sh.n = 0 := Nat.le_zero.mp hle
    obtain ⟨hcap, h8, b, hb⟩ := indexCap_spec 0
    have hmask : indexCap 0 - 1 + 1 = indexCap 0 := by omega
    apply meets_modify
    refine ⟨?_, _, rfl, ?_, ?_, ?_⟩
    · refine unchanged_of_keys ⟨Grows.refl, rfl, rfl, rfl⟩ hok.shape rfl hn.symm ?_ ?_
      · intro i hi
        omega
      · intro i hi
        omega
    · refine ⟨hok.shapes, rfl, ?_, Nat.zero_le _, hok.small, hok.fvals, ?_, ?_⟩
      · refine ⟨Nat.zero_le _, fun i hi => absurd hi (Nat.not_lt_zero i),
          fun i hi => absurd hi (Nat.not_lt_zero i), rfl, Nat.zero_le _, ?_, ?_⟩
        · change 8 ≤ indexCap 0 - 1 + 1
          omega
        · change Indexed (List.replicate (indexCap 0) 0) (indexCap 0 - 1) _ 0
          rw [← hmask]
          exact Indexed.empty ⟨b, by omega⟩
      · exact fun i hi => absurd hi (Nat.not_lt_zero i)
      · intro sh' h
        cases h
        exact h4
    · change 2 * (0 + 1) ≤ indexCap 0 - 1 + 1
      omega
    · refine ⟨rfl, rfl, fun _ => ?_, fun _ => ?_,
        ⟨fun _ => Or.inr fun p hp => absurd hp (by omega), fun _ => hn.symm⟩⟩
      · exact sameEntries_of_keys hok.shape rfl hn.symm (by intro i hi; omega) fun _ _ => rfl
      · exact Or.inr fun p hp => absurd hp (Nat.not_lt_zero p)
  | some vals =>
    rw [hvals] at hle
    have hvlen : sh.n ≤ vals.length := hle
    have hflen : ∀ fa, s.t.fvals = some fa → fa.length = vals.length := by
      intro fa hfa
      have hlen := hok.fvals fa hfa
      rw [hvals] at hlen
      exact hlen
    obtain ⟨hcap, h8, -⟩ := indexCap_spec (countLive vals sh.n)
    obtain ⟨c, hc, h⟩ := rebuild_spec hroom hvlen hflen
    have hj := h.j
    apply meets_orStuck hc
    apply meets_modify
    obtain ⟨hun, hok'⟩ := h.result hok hown hvals (by omega) (by omega) rfl
    refine ⟨hun, _, rfl, hok', ?_, h.rearranged hok hvals hfull rfl⟩
    change 2 * (c.j + 1) ≤ indexCap (countLive vals sh.n) - 1 + 1
    omega

end Lua2wasm.Table
