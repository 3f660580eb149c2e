import Lua2wasm.Lib.Slots

/-!
# The pool of constant strings

`StrPool` of `src/codegen/strings.c`: interned bytes with an index of the runs that were asked for. `strpoolAdd` hands
out an offset at which the bytes of a string are, and since bytes are only ever appended they stay there
(`strpoolAdd_spec`). A string that was asked for before gets the offset that it got then, because the index has its
run and no other run of the same bytes (`Ok.unique`).

`none` is a loop that does not end, and there is none.
-/

namespace Lua2wasm.Codegen

/-! ## The functions of the source -/

/-- The 64-bit FNV-1a hash. -/
def fnv64 (bytes : List UInt8) : UInt64 :=
  bytes.foldl (fun h b => (h ^^^ b.toUInt64) * 1099511628211) 1469598103934665603

/-- `strpool_hash`, for a `size_t` of so many bits. -/
def strpoolHash (bits : ℕ) (bytes : List UInt8) : ℕ := (fnv64 bytes).toNat % 2^bits

/-- A used `StrIdxSlot`. -/
structure StrIdxSlot where
  hash : ℕ
  offset : ℕ
  len : ℕ
  deriving DecidableEq

/-- An interned run. -/
structure StrRef where
  offset : ℕ
  len : ℕ
  deriving DecidableEq

/-- The pool. `bytes` has the `used` bytes; an index that is not allocated has no slots. -/
structure StrPool where
  bytes : List UInt8
  cap : ℕ
  idx : List (Option StrIdxSlot)
  idxCount : ℕ

/-- The pool before anything is added. -/
def StrPool.empty : StrPool := ⟨[], 0, [], 0⟩

/-- The bytes of a run. -/
def StrPool.run (p : StrPool) (offset len : ℕ) : List UInt8 := (p.bytes.drop offset).take len

/-- `strpool_scan`. -/
def strpoolScan (p : StrPool) (bytes : List UInt8) : Option ℕ :=
  if bytes.length = 0 then some 0
  else if p.bytes.length < bytes.length then none
  else (List.range (p.bytes.length + 1 - bytes.length)).find? fun i => p.run i bytes.length = bytes

/-- The walk of `strpool_index_put` to an empty slot or to the entry itself. -/
def placeSlot (p : StrPool) (slot : StrIdxSlot) : Option StrPool := do
  let mask := p.idx.length - 1
  let i ← Probe.seek p.idx mask (fun s => s = slot) p.idx.length (mask &&& slot.hash)
  match p.idx[i]? with
  | some none => some { p with idx := p.idx.set i (some slot), idxCount := p.idxCount + 1 }
  | _ => some p

/-- `strpool_index_grow`, with the function that puts the entries into the new index. -/
def strpoolIndexGrow (put : StrPool → StrIdxSlot → Option StrPool) (p : StrPool) : Option StrPool :=
  let newCap := if p.idx.length ≠ 0 then p.idx.length * 2 else 64
  (p.idx.filterMap id).foldlM put { p with idx := List.replicate newCap none, idxCount := 0 }

/-- `strpool_index_put`, which calls itself through `strpool_index_grow`. -/
def strpoolIndexPut : ℕ → StrPool → StrIdxSlot → Option StrPool
  | 0, _, _ => none
  | depth + 1, p, slot => do
    let p ← (if p.idx.length = 0 ∨ p.idx.length * 7 ≤ (p.idxCount + 1) * 10 then
      strpoolIndexGrow (strpoolIndexPut depth) p else some p)
    placeSlot p slot

/-- `strpool_index_get`: the offset that is found, if one is. -/
def strpoolIndexGet (p : StrPool) (hash : ℕ) (bytes : List UInt8) : Option (Option ℕ) :=
  if p.idx.length = 0 then some none
  else do
    let mask := p.idx.length - 1
    let i ← Probe.seek p.idx mask
      (fun s => s.hash = hash && s.len = bytes.length && p.run s.offset bytes.length = bytes) p.idx.length
      (mask &&& hash)
    match p.idx[i]? with
    | some (some s) => some (some s.offset)
    | _ => some none

/-- The capacity is doubled until there is room. -/
def grownCap (need cap : ℕ) : ℕ := if cap = 0 ∨ need ≤ cap then cap else grownCap need (cap * 2)
termination_by need - cap

/-- `strpool_add`. The growth of the index nests once. -/
def strpoolAdd (bits : ℕ) (p : StrPool) (bytes : List UInt8) : Option (StrRef × StrPool) :=
  if bytes.length = 0 then some (⟨0, 0⟩, p)
  else do
    let hash := strpoolHash bits bytes
    let found ← strpoolIndexGet p hash bytes
    let found := match found with
      | some offset => some offset
      | none => strpoolScan p bytes
    match found with
    | some offset =>
      let p ← strpoolIndexPut 2 p ⟨hash, offset, bytes.length⟩
      some (⟨offset, bytes.length⟩, p)
    | none =>
      let need := p.bytes.length + bytes.length
      let cap := if p.cap < need then grownCap need (if p.cap ≠ 0 then p.cap else 64) else p.cap
      let offset := p.bytes.length
      let p ← strpoolIndexPut 2 { p with bytes := p.bytes ++ bytes, cap } ⟨hash, offset, bytes.length⟩
      some (⟨offset, bytes.length⟩, p)

/-! ## The index -/

/-- The slot that a search for an entry begins at. -/
def home (cap : ℕ) (e : StrIdxSlot) : ℕ := (cap - 1) &&& e.hash

/-- The index is one for probing, and its count is that of the entries. -/
structure IndexOk (p : StrPool) : Prop where
  placed : Probe.Placed p.idx (p.idx.length - 1) (home p.idx.length)
  count : p.idxCount = p.idx.countP Option.isSome

/-- The index is not allocated, or it has room as the load factor demands. -/
def Loaded (p : StrPool) : Prop :=
  (p.idx = [] ∧ p.idxCount = 0) ∨ (IndexOk p ∧ p.idxCount * 10 < p.idx.length * 7)

/-- What holds of every pool: the entries of the index are runs in the pool with their hashes, one for the same
bytes. -/
structure StrPool.Ok (bits : ℕ) (p : StrPool) : Prop where
  room : p.bytes.length ≤ p.cap
  loaded : Loaded p
  hash : ∀ e, some e ∈ p.idx → e.hash = strpoolHash bits (p.run e.offset e.len)
  inside : ∀ e, some e ∈ p.idx → 0 < e.len ∧ e.offset + e.len ≤ p.bytes.length
  unique : ∀ e e', some e ∈ p.idx → some e' ∈ p.idx → p.run e.offset e.len = p.run e'.offset e'.len → e = e'

/-- `r` is a place of `bytes` in the pool. -/
structure Holds (p : StrPool) (bytes : List UInt8) (r : StrRef) : Prop where
  len : r.len = bytes.length
  inside : r.offset + r.len ≤ p.bytes.length
  run : p.run r.offset r.len = bytes

/-- `p'` is `p` with another index, which has the entries of `p`'s and those for which `new` holds. -/
structure Reindexed (p p' : StrPool) (new : StrIdxSlot → Prop) : Prop where
  bytes : p'.bytes = p.bytes
  cap : p'.cap = p.cap
  mem : ∀ e, some e ∈ p'.idx ↔ new e ∨ some e ∈ p.idx

section

variable {bits : ℕ} {p p' : StrPool} {slot e e' : StrIdxSlot} {bytes : List UInt8} {n : ℕ}

theorem home_le : home n e ≤ n - 1 := Probe.and_mask_le _

/-- An entry is put where there is room for it. -/
theorem placeSlot_spec (h : IndexOk p) (hroom : (p.idxCount + 1) * 10 < p.idx.length * 7) (slot : StrIdxSlot) :
    ∃ p', placeSlot p slot = some p' ∧ IndexOk p' ∧ p'.idx.length = p.idx.length ∧ p'.idxCount ≤ p.idxCount + 1 ∧
      Reindexed p p' (· = slot) := by
  have hlen := h.placed.length
  have hcount := h.count
  obtain ⟨d, hd, hseek, hpass, hend⟩ := h.placed.seek_spec (home_le (n := p.idx.length) (e := slot)) (fun s => s = slot)
  unfold placeSlot
  rw [← hlen] at hseek
  change Probe.seek p.idx (p.idx.length - 1) (fun s => decide (s = slot)) p.idx.length
    ((p.idx.length - 1) &&& slot.hash) = _ at hseek
  dsimp only
  rw [hseek]
  rcases hend with hempty | ⟨e, he, hhit⟩
  · obtain ⟨hplaced, hcount', hmem⟩ := h.placed.fill hd (fun c hc => by
      obtain ⟨e, he, -⟩ := hpass c hc
      rw [he]
      simp) hempty (by omega)
    rw [Option.bind_eq_bind, Option.bind_some, hempty]
    refine ⟨_, rfl, ⟨?_, ?_⟩, ?_, le_rfl, rfl, rfl, hmem⟩
    · dsimp only
      rw [List.length_set]
      exact hplaced
    · dsimp only
      rw [hcount', hcount]
    · dsimp only
      rw [List.length_set]
  · refine ⟨p, ?_, h, rfl, Nat.le_succ _, rfl, rfl, ?_⟩
    · rw [Option.bind_eq_bind, Option.bind_some, he]
    · have hslot : e = slot := of_decide_eq_true hhit
      intro e'
      constructor
      · exact Or.inr
      · rintro (rfl | h')
        · exact hslot ▸ List.mem_of_getElem? he
        · exact h'

/-- Without growth an entry is just put into its slot. -/
theorem strpoolIndexPut_of_room (hroom : (p.idxCount + 1) * 10 < p.idx.length * 7) (depth : ℕ) :
    strpoolIndexPut (depth + 1) p slot = placeSlot p slot := by
  unfold strpoolIndexPut
  rw [if_neg (by omega)]
  rfl

/-- Entries that there is room for are put one after the other. -/
theorem foldlM_put {depth : ℕ} : ∀ (es : List StrIdxSlot) (p : StrPool), IndexOk p →
    (p.idxCount + es.length) * 10 < p.idx.length * 7 →
    ∃ p', es.foldlM (strpoolIndexPut (depth + 1)) p = some p' ∧ IndexOk p' ∧ p'.idx.length = p.idx.length ∧
      p'.idxCount ≤ p.idxCount + es.length ∧ Reindexed p p' (· ∈ es) := by
  intro es
  induction es with
  | nil =>
    intro p h _
    exact ⟨p, rfl, h, rfl, le_rfl, rfl, rfl, fun e => by simp⟩
  | cons slot es ih =>
    intro p h hroom
    rw [List.length_cons] at hroom
    obtain ⟨p₁, hput, h₁, hlen₁, hcount₁, hre₁⟩ := placeSlot_spec h (by omega) slot
    obtain ⟨p', hfold, h', hlen', hcount', hre'⟩ := ih p₁ h₁ (by omega)
    refine ⟨p', ?_, h', hlen'.trans hlen₁, ?_, hre'.bytes.trans hre₁.bytes, hre'.cap.trans hre₁.cap, ?_⟩
    · rw [List.foldlM_cons, strpoolIndexPut_of_room (by omega), hput]
      exact hfold
    · rw [List.length_cons]
      omega
    · intro e
      rw [hre'.mem, hre₁.mem, List.mem_cons]
      tauto

theorem two_pow_of_placed (h : IndexOk p) : ∃ b, p.idx.length = 2^b := by
  obtain ⟨b, hb⟩ := h.placed.size
  exact ⟨b, h.placed.length.trans hb⟩

/-- Growing makes a loaded index one that has room for one more entry, with the same entries. -/
theorem strpoolIndexGrow_spec (h : Loaded p) : ∃ p', strpoolIndexGrow (strpoolIndexPut 1) p = some p' ∧ IndexOk p' ∧
    (p'.idxCount + 1) * 10 < p'.idx.length * 7 ∧ Reindexed p p' (fun _ => False) := by
  have hlen : (p.idx.filterMap id).length = p.idx.countP Option.isSome := by
    rw [List.countP_eq_length_filter, List.length_filterMap_eq_countP]
    simp [List.countP_eq_length_filter]
  have hmem : ∀ e, e ∈ p.idx.filterMap id ↔ some e ∈ p.idx := by
    intro e
    simp
  obtain ⟨newCap, hnew⟩ : ∃ n, n = if p.idx.length ≠ 0 then p.idx.length * 2 else 64 := ⟨_, rfl⟩
  have hpow : ∃ b, newCap = 2^b := by
    rcases h with ⟨hnil, -⟩ | ⟨hok, -⟩
    · exact ⟨6, by rw [hnew, hnil]; rfl⟩
    · obtain ⟨b, hb⟩ := two_pow_of_placed hok
      have := Nat.two_pow_pos b
      exact ⟨b + 1, by rw [hnew, if_pos (by omega), hb]; ring⟩
  have hsize : newCap - 1 + 1 = newCap := by
    obtain ⟨b, hb⟩ := hpow
    have := Nat.two_pow_pos b
    omega
  -- the new index and what the load of the old one says about it
  have hempty : IndexOk { p with idx := List.replicate newCap none, idxCount := 0 } := by
    constructor
    · dsimp only
      rw [List.length_replicate, ← hsize, Nat.add_sub_cancel]
      exact Probe.Placed.empty (by rw [hsize]; exact hpow)
    · dsimp only
      rw [List.countP_replicate]
      rfl
  have hload : ((p.idx.filterMap id).length + 1) * 10 < newCap * 7 := by
    rw [hlen]
    rcases h with ⟨hnil, -⟩ | ⟨hok, hload⟩
    · rw [hnew, hnil]
      decide
    · have := hok.count
      rw [hnew, if_pos (by omega)]
      rcases (show p.idx.length = 1 ∨ 2 ≤ p.idx.length by omega) with hone | htwo
      · omega
      · omega
  have hcap : (List.replicate newCap (none : Option StrIdxSlot)).length = newCap := List.length_replicate
  obtain ⟨p', hfold, h', hlen', hcount', hre⟩ := @foldlM_put 0 (p.idx.filterMap id) _ hempty
    (by dsimp only; rw [hcap]; omega)
  dsimp only at hlen' hcount'
  rw [hcap] at hlen'
  refine ⟨p', ?_, h', by rw [hlen']; omega, hre.bytes, hre.cap, ?_⟩
  · unfold strpoolIndexGrow
    rw [← hnew]
    exact hfold
  · intro e
    rw [hre.mem, hmem]
    simp

/-- An entry is put into the index, which grows if it must. -/
theorem strpoolIndexPut_spec (h : Loaded p) (slot : StrIdxSlot) : ∃ p', strpoolIndexPut 2 p slot = some p' ∧
    Loaded p' ∧ Reindexed p p' (· = slot) := by
  have hplace : ∀ {q : StrPool}, IndexOk q → (q.idxCount + 1) * 10 < q.idx.length * 7 →
      Reindexed p q (fun _ => False) → ∃ p', placeSlot q slot = some p' ∧ Loaded p' ∧ Reindexed p p' (· = slot) := by
    intro q hq hroom hre
    obtain ⟨p', hput, hok, hlen, hcount, hre'⟩ := placeSlot_spec hq hroom slot
    refine ⟨p', hput, Or.inr ⟨hok, by omega⟩, hre'.bytes.trans hre.bytes, hre'.cap.trans hre.cap, ?_⟩
    intro e
    rw [hre'.mem, hre.mem, false_or]
  by_cases hfull : p.idx.length = 0 ∨ p.idx.length * 7 ≤ (p.idxCount + 1) * 10
  · obtain ⟨q, hgrow, hq, hroom, hre⟩ := strpoolIndexGrow_spec h
    obtain ⟨p', hput, hok, hre'⟩ := hplace hq hroom hre
    refine ⟨p', ?_, hok, hre'⟩
    unfold strpoolIndexPut
    rw [if_pos hfull, hgrow]
    exact hput
  · rcases h with ⟨hnil, -⟩ | ⟨hok, -⟩
    · exact absurd (Or.inl (by rw [hnil]; rfl)) hfull
    · rw [strpoolIndexPut_of_room (by omega)]
      exact hplace hok (by omega) ⟨rfl, rfl, fun e => by simp⟩

/-! ## Adding a string -/

theorem run_length {offset len : ℕ} (h : offset + len ≤ p.bytes.length) : (p.run offset len).length = len := by
  unfold StrPool.run
  rw [List.length_take, List.length_drop]
  omega

/-- Bytes that are appended change no run. -/
theorem run_of_initial {offset len : ℕ} (hpre : p.bytes <+: p'.bytes) (h : offset + len ≤ p.bytes.length) :
    p'.run offset len = p.run offset len := by
  obtain ⟨more, hmore⟩ := hpre
  unfold StrPool.run
  rw [← hmore, List.drop_append_of_le_length (by omega), List.take_append_of_le_length]
  rw [List.length_drop]
  omega

theorem Holds.later {r : StrRef} (h : Holds p bytes r) (hpre : p.bytes <+: p'.bytes) : Holds p' bytes r where
  len := h.len
  inside := h.inside.trans hpre.length_le
  run := (run_of_initial hpre h.inside).trans h.run

/-- The index finds the entry of the bytes, or there is none. -/
theorem strpoolIndexGet_spec (h : p.Ok bits) (bytes : List UInt8) :
    (∃ e, some e ∈ p.idx ∧ p.run e.offset e.len = bytes ∧
        strpoolIndexGet p (strpoolHash bits bytes) bytes = some (some e.offset)) ∨
      strpoolIndexGet p (strpoolHash bits bytes) bytes = some none ∧
        ∀ e, some e ∈ p.idx → p.run e.offset e.len ≠ bytes := by
  unfold strpoolIndexGet
  rcases h.loaded with ⟨hnil, -⟩ | ⟨hok, hload⟩
  · right
    rw [hnil]
    exact ⟨rfl, fun e he => absurd he (by simp)⟩
  obtain ⟨hit, hhit⟩ : ∃ hit : StrIdxSlot → Bool, hit = fun s => s.hash = strpoolHash bits bytes &&
      s.len = bytes.length && p.run s.offset bytes.length = bytes := ⟨_, rfl⟩
  have hhit_iff : ∀ e, hit e = true ↔ e.hash = strpoolHash bits bytes ∧ e.len = bytes.length ∧
      p.run e.offset bytes.length = bytes := by
    intro e
    rw [hhit]
    simp only [Bool.and_eq_true, decide_eq_true_eq, and_assoc]
  have hhome : (p.idx.length - 1) &&& strpoolHash bits bytes ≤ p.idx.length - 1 := Probe.and_mask_le _
  obtain ⟨d, hd, hseek, hpass, hend⟩ := hok.placed.seek_spec hhome hit
  rw [← hok.placed.length] at hseek
  rw [if_neg (by omega)]
  dsimp only
  rw [← hhit, hseek, Option.bind_eq_bind, Option.bind_some]
  rcases hend with hempty | ⟨e, he, heq⟩
  · right
    rw [hempty]
    refine ⟨rfl, ?_⟩
    intro e he hrun
    obtain ⟨hpos, hin⟩ := h.inside e he
    have hlen : e.len = bytes.length := by
      rw [← hrun, run_length hin]
    have hhash := h.hash e he
    rw [hrun] at hhash
    have hmiss := hok.placed.seek_empty (e := e) hd (by unfold home; rw [hhash]; exact hpass)
      (by unfold home; rw [hhash]; exact hempty) he
    rw [← Bool.not_eq_true, hhit_iff] at hmiss
    exact hmiss ⟨hhash, hlen, hlen ▸ hrun⟩
  · left
    rw [he]
    obtain ⟨-, hlen, hrun⟩ := (hhit_iff e).mp heq
    exact ⟨e, List.mem_of_getElem? he, hlen ▸ hrun, rfl⟩

/-- A scan finds the bytes or they are not there. -/
theorem strpoolScan_spec {offset : ℕ} (hne : bytes ≠ []) (h : strpoolScan p bytes = some offset) :
    Holds p bytes ⟨offset, bytes.length⟩ := by
  have hlen : bytes.length ≠ 0 := fun h => hne (List.length_eq_zero_iff.mp h)
  unfold strpoolScan at h
  rw [if_neg hlen] at h
  split_ifs at h with hlong
  have hmem := List.mem_of_find?_eq_some h
  have hrun := List.find?_some h
  rw [List.mem_range] at hmem
  exact ⟨rfl, by dsimp only; omega, of_decide_eq_true hrun⟩

/-- An entry for bytes that no other entry is for. -/
theorem put_ok {offset : ℕ} (h : p.Ok bits) (hne : bytes ≠ []) (hold : Holds p bytes ⟨offset, bytes.length⟩)
    (hnew : ∀ e, some e ∈ p.idx → p.run e.offset e.len = bytes → e = ⟨strpoolHash bits bytes, offset, bytes.length⟩) :
    ∃ p', strpoolIndexPut 2 p ⟨strpoolHash bits bytes, offset, bytes.length⟩ = some p' ∧ p'.Ok bits ∧
      Reindexed p p' (· = ⟨strpoolHash bits bytes, offset, bytes.length⟩) := by
  obtain ⟨p', hput, hloaded, hre⟩ := strpoolIndexPut_spec h.loaded ⟨strpoolHash bits bytes, offset, bytes.length⟩
  have hrun : ∀ offset len, p'.run offset len = p.run offset len := by
    intro offset len
    unfold StrPool.run
    rw [hre.bytes]
  have hlen : 0 < bytes.length := List.length_pos_iff.mpr hne
  refine ⟨p', hput, ⟨?_, hloaded, ?_, ?_, ?_⟩, hre⟩
  · rw [hre.bytes, hre.cap]
    exact h.room
  · intro e he
    rw [hrun]
    rcases (hre.mem e).mp he with rfl | he
    · exact congrArg (strpoolHash bits) hold.run.symm
    · exact h.hash e he
  · intro e he
    rw [hre.bytes]
    rcases (hre.mem e).mp he with rfl | he
    · exact ⟨hlen, hold.inside⟩
    · exact h.inside e he
  · intro e e' he he' heq
    rw [hrun, hrun] at heq
    rcases (hre.mem e).mp he with rfl | he
    · rcases (hre.mem e').mp he' with rfl | he'
      · rfl
      · exact (hnew e' he' (heq.symm.trans hold.run)).symm
    · rcases (hre.mem e').mp he' with rfl | he'
      · exact hnew e he (heq.trans hold.run)
      · exact h.unique e e' he he' heq

theorem le_grownCap (need cap : ℕ) (hcap : cap ≠ 0) : need ≤ grownCap need cap := by
  fun_induction grownCap need cap with
  | case1 cap h => omega
  | case2 cap h ih => exact ih (by omega)

/-- Bytes are appended within the capacity, and no entry changes. -/
theorem append_ok (h : p.Ok bits) {cap : ℕ} (hcap : p.bytes.length + bytes.length ≤ cap) :
    StrPool.Ok bits { p with bytes := p.bytes ++ bytes, cap } := by
  have hpre : p.bytes <+: StrPool.bytes { p with bytes := p.bytes ++ bytes, cap } := List.prefix_append _ _
  have hrun : ∀ e, some e ∈ p.idx →
      StrPool.run { p with bytes := p.bytes ++ bytes, cap } e.offset e.len = p.run e.offset e.len :=
    fun e he => run_of_initial hpre (h.inside e he).2
  constructor
  · dsimp only
    rw [List.length_append]
    exact hcap
  · rcases h.loaded with hnil | ⟨⟨hplaced, hcount⟩, hload⟩
    · exact Or.inl hnil
    · exact Or.inr ⟨⟨hplaced, hcount⟩, hload⟩
  · intro e he
    rw [hrun e he]
    exact h.hash e he
  · intro e he
    exact ⟨(h.inside e he).1, (h.inside e he).2.trans hpre.length_le⟩
  · intro e e' he he' heq
    rw [hrun e he, hrun e' he'] at heq
    exact h.unique e e' he he' heq

/-- What `strpoolAdd` does with bytes: it finds a place of them, by an entry of the index or else by a scan, or it
appends them where there is none; and the index has an entry for the place then. -/
theorem strpoolAdd_cases (h : p.Ok bits) (hne : bytes ≠ []) : ∃ offset p',
    strpoolAdd bits p bytes = some (⟨offset, bytes.length⟩, p') ∧ p'.Ok bits ∧
      (((∃ e, some e ∈ p.idx ∧ p.run e.offset e.len = bytes ∧ e.offset = offset) ∨
            (∀ e, some e ∈ p.idx → p.run e.offset e.len ≠ bytes) ∧ strpoolScan p bytes = some offset) ∧
          Reindexed p p' (· = ⟨strpoolHash bits bytes, offset, bytes.length⟩) ∨
        strpoolScan p bytes = none ∧ offset = p.bytes.length ∧ ∃ cap,
          Reindexed { p with bytes := p.bytes ++ bytes, cap } p'
            (· = ⟨strpoolHash bits bytes, offset, bytes.length⟩)) := by
  have hzero : bytes.length ≠ 0 := fun h => hne (List.length_eq_zero_iff.mp h)
  unfold strpoolAdd
  rw [if_neg hzero]
  rcases strpoolIndexGet_spec h bytes with ⟨e, he, hrun, hget⟩ | ⟨hget, hnone⟩
  · have hlen : e.len = bytes.length := by rw [← hrun, run_length (h.inside e he).2]
    have heq : e = ⟨strpoolHash bits bytes, e.offset, bytes.length⟩ := by
      have := h.hash e he
      rw [hrun] at this
      rw [← this, ← hlen]
    obtain ⟨p', hput, hok, hre⟩ := put_ok h hne ⟨rfl, hlen ▸ (h.inside e he).2, hlen ▸ hrun⟩ fun e' he' hrun' => by
      rw [h.unique e' e he' he (hrun'.trans hrun.symm)]
      exact heq
    dsimp only
    rw [hget, Option.bind_eq_bind, Option.bind_some]
    dsimp only
    rw [hput]
    exact ⟨e.offset, p', rfl, hok, Or.inl ⟨Or.inl ⟨e, he, hrun, rfl⟩, hre⟩⟩
  · dsimp only
    rw [hget, Option.bind_eq_bind, Option.bind_some]
    -- there is no entry: the bytes are scanned for, and appended if they are not there
    cases hscan : strpoolScan p bytes with
    | some offset =>
      obtain ⟨p', hput, hok, hre⟩ :=
        put_ok h hne (strpoolScan_spec hne hscan) fun e he hrun => absurd hrun (hnone e he)
      dsimp only
      rw [hput]
      exact ⟨offset, p', rfl, hok, Or.inl ⟨Or.inr ⟨hnone, rfl⟩, hre⟩⟩
    | none =>
      obtain ⟨cap, hcap⟩ : ∃ cap, cap = if p.cap < p.bytes.length + bytes.length then
        grownCap (p.bytes.length + bytes.length) (if p.cap ≠ 0 then p.cap else 64) else p.cap := ⟨_, rfl⟩
      have hroom : p.bytes.length + bytes.length ≤ cap := by
        rw [hcap]
        split_ifs with hfull hpos
        · exact le_grownCap _ _ hpos
        · exact le_grownCap _ _ (by decide)
        · omega
      rw [← hcap]
      have hok := @append_ok bits p bytes h _ hroom
      have hpre : p.bytes <+: p.bytes ++ bytes := List.prefix_append _ _
      have hold : Holds { p with bytes := p.bytes ++ bytes, cap } bytes ⟨p.bytes.length, bytes.length⟩ := by
        refine ⟨rfl, by simp, ?_⟩
        unfold StrPool.run
        rw [List.drop_left, List.take_length]
      obtain ⟨p', hput, hok', hre⟩ := put_ok hok hne hold fun e he hrun =>
        absurd ((run_of_initial hpre (h.inside e he).2).symm.trans hrun) (hnone e he)
      rw [hput]
      exact ⟨p.bytes.length, p', rfl, hok', Or.inr ⟨rfl, rfl, cap, hre⟩⟩

/-- What `strpoolAdd` has done: the pool has a place of the bytes, which the index has an entry of, and all that was
there. -/
structure Added (bits : ℕ) (p : StrPool) (bytes : List UInt8) (r : StrRef) (p' : StrPool) : Prop where
  ok : p'.Ok bits
  keeps : p.bytes <+: p'.bytes
  mem : ∀ e, some e ∈ p.idx → some e ∈ p'.idx
  holds : Holds p' bytes r
  entry : bytes ≠ [] → ∃ e, some e ∈ p'.idx ∧ e.offset = r.offset ∧ e.len = r.len

theorem strpoolAdd_nil (p : StrPool) : strpoolAdd bits p [] = some (⟨0, 0⟩, p) := if_pos rfl

theorem strpoolAdd_spec (h : p.Ok bits) (bytes : List UInt8) :
    ∃ r p', strpoolAdd bits p bytes = some (r, p') ∧ Added bits p bytes r p' := by
  rcases eq_or_ne bytes [] with rfl | hne
  · exact ⟨⟨0, 0⟩, p, strpoolAdd_nil p, h, List.prefix_rfl, fun e he => he, ⟨rfl, Nat.zero_le _, rfl⟩,
      fun hne => absurd rfl hne⟩
  obtain ⟨offset, p', hadd, hok, hcases⟩ := strpoolAdd_cases h hne
  -- the entry for the place is a run of the bytes
  have hentry : some ⟨strpoolHash bits bytes, offset, bytes.length⟩ ∈ p'.idx := by
    rcases hcases with ⟨-, hre⟩ | ⟨-, -, cap, hre⟩
    · exact (hre.mem _).mpr (Or.inl rfl)
    · exact (hre.mem _).mpr (Or.inl rfl)
  have hinside := (hok.inside _ hentry).2
  rcases hcases with ⟨hfound, hre⟩ | ⟨-, hoffset, cap, hre⟩
  · have hrun : p.run offset bytes.length = bytes := by
      rcases hfound with ⟨e, he, hrun, rfl⟩ | ⟨-, hscan⟩
      · have hlen : e.len = bytes.length := by rw [← hrun, run_length (h.inside e he).2]
        exact hlen ▸ hrun
      · exact (strpoolScan_spec hne hscan).run
    refine ⟨_, p', hadd, hok, by rw [hre.bytes], fun e he => (hre.mem e).mpr (Or.inr he), ⟨rfl, hinside, ?_⟩,
      fun _ => ⟨_, hentry, rfl, rfl⟩⟩
    unfold StrPool.run
    rw [hre.bytes]
    exact hrun
  · have hbytes : p'.bytes = p.bytes ++ bytes := hre.bytes
    refine ⟨_, p', hadd, hok, ?_, fun e he => (hre.mem e).mpr (Or.inr he), ⟨rfl, hinside, ?_⟩,
      fun _ => ⟨_, hentry, rfl, rfl⟩⟩
    · rw [hbytes]
      exact List.prefix_append _ _
    · unfold StrPool.run
      rw [hbytes, hoffset, List.drop_left, List.take_length]

theorem empty_ok : StrPool.empty.Ok bits where
  room := le_rfl
  loaded := Or.inl ⟨rfl, rfl⟩
  hash e he := absurd he (by simp [StrPool.empty])
  inside e he := absurd he (by simp [StrPool.empty])
  unique e _ he := absurd he (by simp [StrPool.empty])

end

end Lua2wasm.Codegen
