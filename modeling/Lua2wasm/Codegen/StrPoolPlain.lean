import Lua2wasm.Codegen.StrPool
import Lua2wasm.Lib.Occurrence

/-!
# The pool without its index

The comment on the pool in `src/codegen/strings.c` says that the index only saves time: offsets and bytes are those of a
pool that is scanned at every call (`plainAdd`), because the index has the lowest place of each string. It has the place
that was the lowest when it was recorded, and that stays so, but for a string that was appended: behind `ab` the place
made for `aba` is 2, and a scan finds it at 0. The bytes are always the same (`strpoolAddAll_bytes`), and the offsets are
unless such a string is asked for again (`strpoolAddAll_eq_iff`).
-/

namespace Lua2wasm.Codegen

open Occurrence (lowest Lowest Straddles)

/-- A pool without index: the lowest place of the bytes, which are appended if there is none. -/
def plainAdd (pool bytes : List UInt8) : StrRef × List UInt8 :=
  match lowest pool bytes with
  | some offset => (⟨offset, bytes.length⟩, pool)
  | none => (⟨pool.length, bytes.length⟩, pool ++ bytes)

/-- Calls of `strpool_add`, one after the other. -/
def strpoolAddAll (bits : ℕ) : StrPool → List (List UInt8) → Option (List StrRef × StrPool)
  | p, [] => some ([], p)
  | p, s :: ss => do
    let (r, p) ← strpoolAdd bits p s
    let (rs, p) ← strpoolAddAll bits p ss
    some (r :: rs, p)

/-- The same calls on a pool without index. -/
def plainAddAll : List UInt8 → List (List UInt8) → List StrRef × List UInt8
  | pool, [] => ([], pool)
  | pool, s :: ss =>
    let (r, pool) := plainAdd pool s
    let (rs, pool) := plainAddAll pool ss
    (r :: rs, pool)

/-- No string that straddles the end of the pool when it comes is asked for again. -/
def NoneStraddles : List UInt8 → List (List UInt8) → Prop
  | _, [] => True
  | pool, s :: ss => (s ∈ ss → ¬Straddles pool s) ∧ NoneStraddles (plainAdd pool s).2 ss

instance decidableNoneStraddles : ∀ pool ss, Decidable (NoneStraddles pool ss)
  | _, [] => inferInstanceAs (Decidable True)
  | pool, s :: ss =>
    have := decidableNoneStraddles (plainAdd pool s).2 ss
    inferInstanceAs (Decidable ((s ∈ ss → ¬Straddles pool s) ∧ NoneStraddles (plainAdd pool s).2 ss))

/-- The entry is the lowest place of its bytes. -/
def LowestEntry (p : StrPool) (e : StrIdxSlot) : Prop := Lowest p.bytes (p.run e.offset e.len) e.offset

variable {bits : ℕ} {p p' : StrPool} {e : StrIdxSlot} {bytes : List UInt8} {offset : ℕ}

/-! ## One call -/

/-- `strpool_scan` finds the lowest place. -/
theorem strpoolScan_eq_lowest (p : StrPool) (bytes : List UInt8) : strpoolScan p bytes = lowest p.bytes bytes := by
  rcases eq_or_ne bytes [] with rfl | hne
  · rw [Occurrence.lowest_nil]
    rfl
  have hpos := List.length_pos_iff.mpr hne
  have hscan : ∀ i, strpoolScan p bytes = some i ↔ Lowest p.bytes bytes i := by
    intro i
    unfold strpoolScan
    rw [if_neg (by omega)]
    split_ifs with hlong
    · refine ⟨fun h => absurd h (by simp), fun h => ?_⟩
      have := h.here.le hne
      omega
    · rw [List.find?_range_eq_some, List.mem_range]
      simp only [decide_eq_true_eq, Bool.not_eq_eq_eq_not, Bool.not_true, decide_eq_false_iff_not]
      constructor
      · rintro ⟨hat, -, hleast⟩
        exact ⟨hat, hleast⟩
      · rintro ⟨hat, hleast⟩
        have := hat.le hne
        exact ⟨hat, by omega, hleast⟩
  apply Option.ext
  intro i
  rw [hscan, Occurrence.lowest_eq_some hne]

theorem plainAdd_of_lowest (hne : bytes ≠ []) (h : Lowest p.bytes bytes offset) :
    plainAdd p.bytes bytes = (⟨offset, bytes.length⟩, p.bytes) := by
  unfold plainAdd
  rw [(Occurrence.lowest_eq_some hne).mpr h]

theorem plainAdd_of_none (hne : bytes ≠ []) (h : ∀ i, ¬Occurrence.At p.bytes bytes i) :
    plainAdd p.bytes bytes = (⟨p.bytes.length, bytes.length⟩, p.bytes ++ bytes) := by
  unfold plainAdd
  rw [(Occurrence.lowest_eq_none hne).mpr h]

/-- An entry is a place of its bytes. -/
theorem at_of_entry (h : p.Ok bits) (he : some e ∈ p.idx) : Occurrence.At p.bytes (p.run e.offset e.len) e.offset := by
  have hrun := run_length (h.inside e he).2
  unfold Occurrence.At
  rw [hrun]
  rfl

/-- What an entry is the place of, and whether it is the lowest, does not change. -/
theorem entry_later (h : p.Ok bits) (he : some e ∈ p.idx) (hpre : p.bytes <+: p'.bytes) :
    p'.run e.offset e.len = p.run e.offset e.len ∧ (LowestEntry p' e ↔ LowestEntry p e) := by
  have hin := (h.inside e he).2
  have hrun := run_of_initial hpre hin
  refine ⟨hrun, ?_⟩
  obtain ⟨more, hmore⟩ := hpre
  unfold LowestEntry
  rw [hrun, ← hmore]
  exact Occurrence.lowest_append_iff (by rw [run_length hin]; exact hin)

/-- The strings that will be asked for and have an entry have the lowest place there. -/
def Pending (p : StrPool) (ss : List (List UInt8)) : Prop :=
  ∀ e, some e ∈ p.idx → p.run e.offset e.len ∈ ss → LowestEntry p e

theorem pending_cons {ss : List (List UInt8)} : Pending p (bytes :: ss) ↔
    (∀ e, some e ∈ p.idx → p.run e.offset e.len = bytes → LowestEntry p e) ∧ Pending p ss := by
  unfold Pending
  simp only [List.mem_cons, or_imp, forall_and]

/-- A call on the pool, and the same call on the plain one: whether the offset is the same, now and later. -/
structure LikePlain (bits : ℕ) (p : StrPool) (bytes : List UInt8) (r : StrRef) (p' : StrPool) : Prop where
  ok : p'.Ok bits
  same : p'.bytes = (plainAdd p.bytes bytes).2
  offset : ∀ ss, r = (plainAdd p.bytes bytes).1 ∧ Pending p' ss ↔
    Pending p (bytes :: ss) ∧ (bytes ∈ ss → ¬Straddles p.bytes bytes)

/-- The offset of an entry is the one that a scan gives if it is the lowest. -/
theorem offset_of_entry (h : p.Ok bits) (he : some e ∈ p.idx) (hrun : p.run e.offset e.len = bytes) (hne : bytes ≠ []) :
    (plainAdd p.bytes bytes).2 = p.bytes ∧
      ((⟨e.offset, bytes.length⟩ : StrRef) = (plainAdd p.bytes bytes).1 ↔ LowestEntry p e) := by
  have hat := at_of_entry h he
  rw [hrun] at hat
  obtain ⟨i, hi⟩ : ∃ i, Lowest p.bytes bytes i := by
    rcases hlow : lowest p.bytes bytes with _ | i
    · exact absurd hat ((Occurrence.lowest_eq_none hne).mp hlow e.offset)
    · exact ⟨i, (Occurrence.lowest_eq_some hne).mp hlow⟩
  rw [plainAdd_of_lowest hne hi]
  refine ⟨rfl, ?_⟩
  unfold LowestEntry
  rw [hrun]
  constructor
  · intro heq
    have hoffset : e.offset = i := congrArg StrRef.offset heq
    rw [hoffset]
    exact hi
  · intro hlow
    rw [hlow.unique hi]

/-- Nothing changes but the index, which gets an entry that is the lowest place of the bytes, or had it before. -/
theorem pending_reindexed {ss : List (List UInt8)} {slot : StrIdxSlot}
    (hre : Reindexed p p' (· = slot)) (hslot : some slot ∈ p.idx ∨ LowestEntry p slot) :
    Pending p' ss ↔ Pending p ss := by
  have hrun : ∀ e : StrIdxSlot, p'.run e.offset e.len = p.run e.offset e.len := by
    intro e
    unfold StrPool.run
    rw [hre.bytes]
  have hlow : ∀ e, LowestEntry p' e ↔ LowestEntry p e := by
    intro e
    unfold LowestEntry
    rw [hrun, hre.bytes]
  unfold Pending
  constructor
  · intro hpend e he hmem
    exact (hlow e).mp (hpend e ((hre.mem e).mpr (Or.inr he)) ((hrun e).symm ▸ hmem))
  · intro hpend e he hmem
    rw [hlow]
    rw [hrun] at hmem
    rcases (hre.mem e).mp he with rfl | he
    · rcases hslot with hold | hnew
      · exact hpend e hold hmem
      · exact hnew
    · exact hpend e he hmem

theorem strpoolAdd_likePlain (h : p.Ok bits) (bytes : List UInt8) :
    ∃ r p', strpoolAdd bits p bytes = some (r, p') ∧ LikePlain bits p bytes r p' := by
  rcases eq_or_ne bytes [] with rfl | hne
  · have hplain : plainAdd p.bytes [] = (⟨0, 0⟩, p.bytes) := by
      unfold plainAdd
      rw [Occurrence.lowest_nil]
      rfl
    refine ⟨⟨0, 0⟩, p, strpoolAdd_nil p, h, by rw [hplain], fun ss => ?_⟩
    rw [hplain, pending_cons]
    have hpos : ∀ e, some e ∈ p.idx → p.run e.offset e.len ≠ [] := by
      intro e he
      rw [← List.length_pos_iff, run_length (h.inside e he).2]
      exact (h.inside e he).1
    refine ⟨fun hpend => ⟨⟨fun e he hrun => absurd hrun (hpos e he), hpend.2⟩, fun _ hstr => ?_⟩,
      fun hpend => ⟨rfl, hpend.1.2⟩⟩
    exact hstr.1 0 (Nat.zero_le _) rfl
  obtain ⟨offset, p', hadd, hok, hcases⟩ := strpoolAdd_cases h hne
  refine ⟨_, p', hadd, ?_⟩
  rcases hcases with ⟨⟨e, he, hrun, rfl⟩ | ⟨hnone, hscan⟩, hre⟩ | ⟨hscan, rfl, cap, hre⟩
  · -- the index has an entry, the only one for these bytes
    obtain ⟨hbytes, hoffset⟩ := offset_of_entry h he hrun hne
    have hslot : e = ⟨strpoolHash bits bytes, e.offset, bytes.length⟩ := by
      have hhash := h.hash e he
      have hlen := run_length (h.inside e he).2
      rw [hrun] at hhash hlen
      rw [← hhash, hlen]
    have hat := at_of_entry h he
    rw [hrun] at hat
    refine ⟨hok, hre.bytes.trans hbytes.symm, fun ss => ?_⟩
    rw [hoffset, pending_reindexed hre (Or.inl (hslot ▸ he)), pending_cons]
    constructor
    · rintro ⟨hlow, hpend⟩
      refine ⟨⟨fun e' he' hrun' => ?_, hpend⟩, fun _ => Occurrence.not_straddles hat hne⟩
      rw [h.unique e' e he' he (hrun'.trans hrun.symm)]
      exact hlow
    · rintro ⟨⟨hlow, hpend⟩, -⟩
      exact ⟨hlow e he hrun, hpend⟩
  · -- both scan
    rw [strpoolScan_eq_lowest, Occurrence.lowest_eq_some hne] at hscan
    have hplain := plainAdd_of_lowest hne hscan
    have hrun : p.run offset bytes.length = bytes := hscan.here
    refine ⟨hok, by rw [hplain]; exact hre.bytes, fun ss => ?_⟩
    rw [hplain, pending_reindexed hre (Or.inr (by unfold LowestEntry; rw [hrun]; exact hscan)), pending_cons]
    constructor
    · rintro ⟨-, hpend⟩
      exact ⟨⟨fun e he hrun => absurd hrun (hnone e he), hpend⟩, fun _ => Occurrence.not_straddles hscan.here hne⟩
    · rintro ⟨⟨-, hpend⟩, -⟩
      exact ⟨rfl, hpend⟩
  · -- both append, and the entry is the lowest place unless the bytes straddle
    rw [strpoolScan_eq_lowest, Occurrence.lowest_eq_none hne] at hscan
    have hplain := plainAdd_of_none hne hscan
    have hbytes : p'.bytes = p.bytes ++ bytes := hre.bytes
    have hpre : p.bytes <+: p'.bytes := by
      rw [hbytes]
      exact List.prefix_append _ _
    have hnone : ∀ e, some e ∈ p.idx → p.run e.offset e.len ≠ bytes :=
      fun e he hrun => hscan e.offset (hrun ▸ at_of_entry h he)
    have hrun : p'.run p.bytes.length bytes.length = bytes := by
      unfold StrPool.run
      rw [hbytes, List.drop_left, List.take_length]
    have hnew : LowestEntry p' ⟨strpoolHash bits bytes, p.bytes.length, bytes.length⟩ ↔ ¬Straddles p.bytes bytes := by
      unfold LowestEntry
      rw [hrun, hbytes]
      exact Occurrence.lowest_appended_iff hscan
    refine ⟨hok, by rw [hplain, hbytes], fun ss => ?_⟩
    rw [hplain, pending_cons]
    constructor
    · rintro ⟨-, hpend⟩
      refine ⟨⟨fun e he hrun => absurd hrun (hnone e he), fun e he hmem => ?_⟩, fun hmem => ?_⟩
      · obtain ⟨hsame, hlow⟩ := entry_later h he hpre
        exact hlow.mp (hpend e ((hre.mem e).mpr (Or.inr he)) (hsame.symm ▸ hmem))
      · exact hnew.mp (hpend _ ((hre.mem _).mpr (Or.inl rfl)) (hrun.symm ▸ hmem))
    · rintro ⟨⟨-, hpend⟩, hstr⟩
      refine ⟨rfl, fun e he hmem => ?_⟩
      rcases (hre.mem e).mp he with rfl | he
      · dsimp only at hmem
        exact hnew.mpr (hstr (hrun ▸ hmem))
      · obtain ⟨hsame, hlow⟩ := entry_later h he hpre
        exact hlow.mpr (hpend e he (hsame ▸ hmem))

/-! ## Sequences of calls -/

/-- The offsets and the bytes are those of the plain pool just if what has an entry has its lowest place there and
nothing that straddles comes again. -/
theorem strpoolAddAll_like_plain (ss : List (List UInt8)) (h : p.Ok bits) :
    ∃ rs p', strpoolAddAll bits p ss = some (rs, p') ∧ p'.bytes = (plainAddAll p.bytes ss).2 ∧
      (rs = (plainAddAll p.bytes ss).1 ↔ Pending p ss ∧ NoneStraddles p.bytes ss) := by
  induction ss generalizing p with
  | nil => exact ⟨[], p, rfl, rfl, fun _ => ⟨fun e _ hmem => absurd hmem List.not_mem_nil, trivial⟩, fun _ => rfl⟩
  | cons s ss ih =>
    obtain ⟨r, p₁, hadd, hlike⟩ := strpoolAdd_likePlain h s
    obtain ⟨rs, p', hall, hbytes, hiff⟩ := ih hlike.ok
    rw [hlike.same] at hbytes hiff
    refine ⟨r :: rs, p', ?_, hbytes, ?_⟩
    · unfold strpoolAddAll
      rw [hadd, Option.bind_eq_bind, Option.bind_some]
      dsimp only
      rw [hall]
      rfl
    · unfold plainAddAll NoneStraddles
      rw [List.cons.injEq, hiff, ← and_assoc, hlike.offset, and_assoc]

/-- The bytes of the pool are those without the index. -/
theorem strpoolAddAll_bytes (bits : ℕ) (ss : List (List UInt8)) :
    (strpoolAddAll bits .empty ss).map (fun r => r.2.bytes) = some (plainAddAll [] ss).2 := by
  obtain ⟨rs, p', hall, hbytes, -⟩ := strpoolAddAll_like_plain ss (@empty_ok bits)
  rw [hall]
  exact congrArg some hbytes

theorem strpoolAddAll_eq (bits : ℕ) (ss : List (List UInt8)) :
    (strpoolAddAll bits .empty ss).map (fun r => (r.1, r.2.bytes)) = some (plainAddAll [] ss) ↔ NoneStraddles [] ss := by
  obtain ⟨rs, p', hall, hbytes, hiff⟩ := strpoolAddAll_like_plain ss (@empty_ok bits)
  have hpend : Pending .empty ss := fun e he => absurd he (by simp [StrPool.empty])
  have hiff : rs = (plainAddAll [] ss).1 ↔ NoneStraddles [] ss := hiff.trans (and_iff_right hpend)
  rw [hall, ← hiff, Option.map_some, Option.some_inj, Prod.ext_iff]
  exact and_iff_left hbytes

/-- The calls give the offsets and the bytes of a pool without index just if no string straddles the end of the pool
when it comes and is asked for again. -/
theorem index_like_plain_iff (bits : ℕ) (ss : List (List UInt8)) :
    (strpoolAddAll bits .empty ss).map (fun r => (r.1, r.2.bytes)) = some (plainAddAll [] ss) ↔ NoneStraddles [] ss :=
  strpoolAddAll_eq bits ss

/-- `ab`, `aba` and again `aba`: the index gives 2 for the last one, and a scan gives 0. -/
theorem index_not_like_plain :
    ¬∀ (bits : ℕ) (ss : List (List UInt8)),
      (strpoolAddAll bits .empty ss).map (fun r => (r.1, r.2.bytes)) = some (plainAddAll [] ss) := by
  intro hall
  exact absurd ((strpoolAddAll_eq 64 [[97, 98], [97, 98, 97], [97, 98, 97]]).mp (hall 64 _)) (by decide)

end Lua2wasm.Codegen
