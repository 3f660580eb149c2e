import Lua2wasm.Strings.Frame

/-!
# Strings of ranges

`$str_from_range` of `runtime/prelude/tostring.wat`, which makes the string of a part of an array through the cache
of short strings, and the counters that turn the cache on and off.

`cached_strings_exact` is about whole histories of calls on strings with requests for ranges among them. Every
request gave a string with exactly the bytes that were asked for, whatever was in the slot, and the counters stay
in their bounds (`CountersOk`): a window has fewer than 256 probes, no more misses than probes and one, and a pause
is of at most 4096 strings.
-/

namespace Lua2wasm.Strings

open Raising
open Table (Fault setAt)

/-- The bytes of a range of an array. Outside of the array a read traps. -/
def takeRange (a : List UInt8) (start len : ℕ) : Option (List UInt8) :=
  if start + len ≤ a.length then some ((a.drop start).take len) else none

/-- `$str_from_range`, when the string is to be looked up in the cache. -/
def strFromRangeCached (src start len kind : ℕ) : StrM ℕ := do
  let a ← arrOf src
  let x ← orTrap (takeRange a start len)
  let c ← scacheFind x (scacheSlot x)
  match c with
  | some c => pure c
  | none => do
    let a ← arrOf src
    let y ← orTrap (takeRange a start len)
    let out ← newArr y
    scacheMissed kind
    let s ← newStr ⟨some out, 0, .flat⟩
    let h ← get
    let cache ← orTrap (setAt h.scache (scacheSlot x) (some s))
    set { h with scache := cache }
    pure s

/-- `$str_from_range`. -/
def strFromRange (src start len kind : ℕ) : StrM ℕ := do
  let a ← arrOf src
  if len = 1 then do
    let c ← orTrap a[start]?
    charStr c
  else do
    let on ← (if len ≤ 40 ∧ 2 ≤ len then scacheOn kind else pure false)
    if on then strFromRangeCached src start len kind
    else do
      let x ← orTrap (takeRange a start len)
      let out ← newArr x
      newStr ⟨some out, 0, .flat⟩

/-- A call on strings, or a request for a range. -/
inductive CacheOp
  /-- A call on strings. -/
  | call (op : StrOp)
  /-- `$str_from_range`. -/
  | range (src start len kind : ℕ)

namespace CacheOp

/-- The call, or the request. -/
def run (host : HostFmt) : CacheOp → StrM StrResult
  | call op => op.run host
  | range src start len kind => .str <$> strFromRange src start len kind

/-- A range is one of an array that there is. -/
def Legal (h : StrHeap) : CacheOp → Prop
  | call op => op.Legal h
  | range src start len kind =>
    src < h.arrs.length ∧ start + len ≤ (h.arrs.getD src []).length ∧ len < 2^31 ∧ kind < 4

/-- What is asked for: a range asks for the bytes that are in it now. -/
def asked (h : StrHeap) : CacheOp → StrOp
  | call op => op
  | range src start len kind => .ofBytes (((h.arrs.getD src []).drop start).take len) kind

end CacheOp

/-- A history of calls and requests, and the heap it leads to. -/
inductive CacheRun (host : HostFmt) : StrHeap → List (StrOp × Except Fault StrResult) → Prop
  /-- Nothing has happened yet. -/
  | init : CacheRun host StrHeap.init []
  /-- One more call or request, with what was asked for. -/
  | step {h h' : StrHeap} {hist : List (StrOp × Except Fault StrResult)} {op : CacheOp} {r : Except Fault StrResult}
      (hrun : CacheRun host h hist) (hl : op.Legal h)
      (hs : ((op.run host).run h : Except Fault StrResult × StrHeap) = (r, h')) :
      CacheRun host h' (hist ++ [(op.asked h, r)])

/-- A counter of the cache. -/
def StrHeap.counter (h : StrHeap) (i : ℕ) : ℕ := (h.scacheState.getD i 0).toNat

/-- The counters of each kind of strings: the probes of the window, the misses among them, and the strings that are
still made without the cache. -/
def CountersOk (h : StrHeap) : Prop :=
  ∀ kind < 4, h.counter (4 * kind) < 256 ∧ h.counter (4 * kind + 1) ≤ h.counter (4 * kind) + 1 ∧
    h.counter (4 * kind + 2) ≤ 4096

variable {host : HostFmt} {h h' : StrHeap} {vals : List (List UInt8)} {a : List UInt8} {src start len kind : ℕ}
  {hist : List (StrOp × Except Fault StrResult)} {E : Fault → StrHeap → Prop}

/-! ## The bytes of a range -/

/-- A new string over a copy of the range. -/
theorem newRange_made {x : List UInt8} (hh : Holds h vals) (hshort : x.length < 2^31) :
    Meets (do
      let out ← newArr x
      newStr ⟨some out, 0, .flat⟩) h (fun s h' => Made vals x s h') E := by
  apply newArr_returns.bind_meets
  have hself : (h.arrs ++ [x])[h.arrs.length]? = some x := by
    simp
  have hmade := newStr_made (E := E) 0 (hh.newArr x) hself hshort (hh.private_newArr x).buf
    (fun hne => absurd rfl hne)
  exact hmade.mono (fun s h' hs => hs.1) fun _ _ he => he

/-- A string is put in its slot, whatever was there. -/
theorem putCache_made {x : List UInt8} {s slot : ℕ} (hmade : Made vals x s h) (hslot : slot < 4096) :
    Meets (do
      let h ← get
      let cache ← orTrap (setAt h.scache slot (some s))
      set { h with scache := cache }
      pure s) h (fun s h' => Made vals x s h') E := by
  obtain ⟨vals', hpre, hh, hs⟩ := hmade
  have hlen := hh.sizes.2.1
  apply meets_get_bind
  apply (orTrap_returns (Table.setAt_of_lt (by omega))).bind_meets
  apply meets_set_bind
  apply meets_pure
  refine ⟨vals', hpre, hh.setCache hh.chars ?_ ?_, hs⟩
  · intro i t hi
    obtain ⟨-, heq⟩ | ⟨-, hi⟩ := Probe.of_getElem?_set hi
    · cases heq
      exact hh.lt hs
    · exact hh.cached i t hi
  · rw [List.length_set]
    exact hh.sizes

theorem strFromRangeCached_spec {x : List UInt8} (hh : Holds h vals) (ha : h.arrs[src]? = some a)
    (htake : takeRange a start len = some x) (hshort : x.length < 2^31) (hkind : kind < 4) :
    Meets (strFromRangeCached src start len kind) h (fun s h' => Made vals x s h') E := by
  obtain ⟨c, h₁, hret₁, hh₁, hreads₁, hval⟩ := scacheFind_spec (a := x) hh (scacheSlot_lt x)
  unfold strFromRangeCached
  apply (arrOf_returns ha).bind_meets
  apply (orTrap_returns htake).bind_meets
  apply hret₁.bind_meets
  cases c with
  | some c => exact meets_pure ⟨vals, List.prefix_rfl, hh₁, hval c rfl⟩
  | none =>
    -- reading the cached string has left the array alone
    apply (arrOf_returns (getElem?_of_initial hreads₁.arrs ha)).bind_meets
    apply (orTrap_returns htake).bind_meets
    apply newArr_returns.bind_meets
    have hself : (h₁.arrs ++ [x])[h₁.arrs.length]? = some x := by
      simp
    obtain ⟨h₂, hret₂, hh₂, hreads₂⟩ := scacheMissed_spec (hh₁.newArr x) hkind
    apply hret₂.bind_meets
    have hmade := newStr_made (E := E) 0 hh₂ (getElem?_of_initial hreads₂.arrs hself) hshort
      (hreads₂.private hself (hh₁.private_newArr x)).buf (fun hne => absurd rfl hne)
    apply hmade.bind
    rintro s h₃ ⟨hs, -⟩
    exact putCache_made hs (scacheSlot_lt x)

/-- `$str_from_range` makes a string with the bytes of the range. -/
theorem strFromRange_spec (hh : Holds h vals) (ha : h.arrs[src]? = some a) (hin : start + len ≤ a.length)
    (hshort : len < 2^31) (hkind : kind < 4) :
    Meets (strFromRange src start len kind) h (fun s h' => Made vals ((a.drop start).take len) s h') E := by
  have htake : takeRange a start len = some ((a.drop start).take len) := if_pos hin
  have hlen : ((a.drop start).take len).length = len := by
    rw [List.length_take, List.length_drop]
    omega
  unfold strFromRange
  apply (arrOf_returns ha).bind_meets
  by_cases hone : len = 1
  · rw [if_pos hone]
    obtain ⟨c, hc⟩ := List.length_eq_one_iff.mp (hlen.trans hone)
    have hget : a[start]? = some c := by
      have hzero := congrArg (fun l => l[0]?) hc
      rw [hone] at hzero
      simpa using hzero
    apply (orTrap_returns hget).bind_meets
    rw [hc]
    exact (charStr_spec hh c).mono (fun s h' hs => hs.1) fun _ _ he => he
  · rw [if_neg hone]
    have hon : Meets (if len ≤ 40 ∧ 2 ≤ len then scacheOn kind else pure false) h
        (fun _ h' => Holds h' vals ∧ Reads h h') E := by
      split
      · exact scacheOn_spec hh hkind
      · exact meets_pure ⟨hh, Reads.refl⟩
    apply hon.bind
    rintro on h₁ ⟨hh₁, hreads₁⟩
    split
    · exact strFromRangeCached_spec hh₁ (getElem?_of_initial hreads₁.arrs ha) htake (by omega) hkind
    · apply (orTrap_returns htake).bind_meets
      exact newRange_made hh₁ (by omega)

/-- A request is a call that gives what was asked for. -/
theorem CacheOp.stepped {op : CacheOp} {r : Except Fault StrResult} (hh : Holds h vals) (hl : op.Legal h)
    (hs : ((op.run host).run h : Except Fault StrResult × StrHeap) = (r, h')) :
    Stepped host vals (op.asked h) r h' := by
  cases op with
  | call op => exact StrOp.stepped hh hl hs
  | range src start len kind =>
    obtain ⟨hsrc, hin, hshort, hkind⟩ := hl
    have ha : h.arrs[src]? = some (h.arrs.getD src []) := by
      rw [List.getD_eq_getElem?_getD, List.getElem?_eq_getElem hsrc]
      rfl
    have hmeets : Ensures ((CacheOp.range src start len kind).run host) h
        (fun r h' => Stepped host vals ((CacheOp.range src start len kind).asked h) (.ok r) h') := by
      change Meets (StrResult.str <$> strFromRange src start len kind) h _ _
      rw [map_eq_pure_bind]
      apply (strFromRange_spec hh ha hin hshort hkind).bind
      rintro s h' ⟨vals', hpre, hh', hs⟩
      refine meets_pure ⟨vals', hpre, hh', valOf_eq hs, ?_⟩
      intro t ht
      cases ht
      exact hh'.lt hs
    cases r with
    | ok r => exact hmeets.of_ok hs
    | error e => exact (hmeets.of_error hs).elim

/-- What is asked for is a legal call. -/
theorem CacheOp.asked_legal {op : CacheOp} (hl : op.Legal h) : (op.asked h).Legal h := by
  cases op with
  | call op => exact hl
  | range src start len kind =>
    refine ⟨lt_of_le_of_lt ?_ hl.2.2.1, hl.2.2.2⟩
    exact List.length_take_le _ _

theorem CacheRun.explained (hrun : CacheRun host h hist) : Explained host h hist := by
  induction hrun with
  | init => exact explained_init
  | step hrun hl hs ih => exact ih.step (CacheOp.asked_legal hl) fun vals hh => CacheOp.stepped hh hl hs

/-! ## The counters -/

/-- The counters are there, and in their bounds. -/
structure CountersInv (h : StrHeap) : Prop where
  length : h.scacheState.length = 16
  ok : CountersOk h

/-- The counters stay in their bounds. -/
def CountersKept (h h' : StrHeap) : Prop := CountersInv h → CountersInv h'

instance : Std.Refl CountersKept where
  refl _ hc := hc

instance : IsTrans StrHeap CountersKept where
  trans _ _ _ hk hk' hc := hk' (hk hc)

theorem CountersInv.of_eq (hc : CountersInv h) (heq : h'.scacheState = h.scacheState) : CountersInv h' := by
  constructor
  · rw [heq]
    exact hc.length
  · unfold CountersOk StrHeap.counter
    rw [heq]
    exact hc.ok

/-- Everything but the cache leaves the counters alone. -/
instance : StringSteps CountersKept where
  newArr _ _ hc := hc.of_eq rfl
  newStr _ _ hc := hc.of_eq rfl
  newBuf _ _ hc := hc.of_eq rfl
  setArr _ _ _ hc := hc.of_eq rfl
  setBuf _ _ _ hc := hc.of_eq rfl
  charStrs _ _ _ hc := hc.of_eq rfl
  setStr _ _ _ _ _ _ hc := hc.of_eq rfl
  setHash _ _ _ _ _ hk _ _ hc := (hk hc).of_eq rfl

theorem scacheStateAt_counter {i : ℕ} (hlen : h.scacheState.length = 16) (hi : i < 16) :
    ∃ x : UInt32, Returns (scacheStateAt i) h x h ∧ x.toNat = h.counter i := by
  have hget : h.scacheState[i]? = some h.scacheState[i] := List.getElem?_eq_getElem (by omega)
  refine ⟨h.scacheState[i], returns_get_bind (orTrap_returns hget), ?_⟩
  unfold StrHeap.counter
  rw [List.getD_eq_getElem?_getD, hget]
  rfl

theorem setScacheState_counter {i : ℕ} (x : UInt32) (hlen : h.scacheState.length = 16) (hi : i < 16) :
    ∃ h', Returns (setScacheState i x) h () h' ∧ h'.scacheState.length = 16 ∧
      ∀ j, h'.counter j = if j = i then x.toNat else h.counter j := by
  refine ⟨{ h with scacheState := h.scacheState.set i x }, ?_, ?_, ?_⟩
  · unfold setScacheState
    apply returns_get_bind
    exact (orTrap_returns (Table.setAt_of_lt (by omega))).bind rfl
  · rw [List.length_set]
    exact hlen
  · intro j
    unfold StrHeap.counter
    rw [Table.getD_set (by omega)]
    split_ifs <;> rfl

/-- After a probe was allowed, it may be a miss. -/
structure Probed (h : StrHeap) (kind : ℕ) : Prop where
  inv : CountersInv h
  room : h.counter (4 * kind + 1) ≤ h.counter (4 * kind)

/-- A kind that there is not has no counters. -/
theorem scacheStateAt_beyond {i : ℕ} (hlen : h.scacheState.length = 16) (hi : 16 ≤ i) {Q : UInt32 → StrHeap → Prop} :
    Meets (scacheStateAt i) h Q fun _ h' => h' = h := by
  unfold scacheStateAt
  apply meets_get_bind
  rw [List.getElem?_eq_none (by omega)]
  exact meets_throw rfl

variable (kind) in
/-- Counters that differ in those of one kind, where they are in their bounds. -/
theorem CountersInv.changed (hc : CountersInv h) (hlen : h'.scacheState.length = 16)
    (hsame : ∀ j, j ≠ 4 * kind → j ≠ 4 * kind + 1 → j ≠ 4 * kind + 2 → h'.counter j = h.counter j)
    (hbounds : h'.counter (4 * kind) < 256 ∧ h'.counter (4 * kind + 1) ≤ h'.counter (4 * kind) + 1 ∧
      h'.counter (4 * kind + 2) ≤ 4096) : CountersInv h' := by
  refine ⟨hlen, ?_⟩
  intro k hk
  by_cases heq : k = kind
  · rw [heq]
    exact hbounds
  · rw [hsame (4 * k) (by omega) (by omega) (by omega), hsame (4 * k + 1) (by omega) (by omega) (by omega),
      hsame (4 * k + 2) (by omega) (by omega) (by omega)]
    exact hc.ok k hk

theorem scacheOn_counters (hc : CountersInv h) (kind : ℕ) :
    Meets (scacheOn kind) h (fun on h' => CountersInv h' ∧ (on = true → kind < 4 ∧ Probed h' kind))
      fun _ h' => CountersInv h' := by
  unfold scacheOn
  by_cases hkind : kind < 4
  · obtain ⟨hp, hm, hs⟩ := hc.ok kind hkind
    obtain ⟨skip, hskip, hskipv⟩ := scacheStateAt_counter (i := 4 * kind + 2) hc.length (by omega)
    apply hskip.bind_meets
    by_cases hpaused : skip ≠ 0
    · -- one string less to make without the cache
      rw [if_pos hpaused]
      obtain ⟨h₁, hset, hlen, hcount⟩ :=
        setScacheState_counter (i := 4 * kind + 2) (skip - 1) hc.length (by omega)
      have hne : skip.toNat ≠ 0 := fun hz => hpaused (UInt32.toNat_inj.mp hz)
      have hsub : (skip - 1).toNat = skip.toNat - 1 := UInt32.toNat_sub_of_le _ _ (by
        rw [UInt32.le_iff_toNat_le]
        change 1 ≤ skip.toNat
        omega)
      apply hset.bind_meets
      refine meets_pure ⟨hc.changed kind hlen ?_ ?_, fun hon => by cases hon⟩
      · intro j _ _ h2
        rw [hcount, if_neg h2]
      · rw [hcount, hcount, hcount, if_neg (by omega), if_neg (by omega), if_pos rfl, hsub]
        omega
    · rw [if_neg hpaused]
      obtain ⟨p, hprobes, hpv⟩ := scacheStateAt_counter (i := 4 * kind) hc.length (by omega)
      apply hprobes.bind_meets
      have hadd : (p + 1).toNat = p.toNat + 1 := by
        rw [UInt32.toNat_add]
        change (p.toNat + 1) % 2^32 = p.toNat + 1
        omega
      by_cases hmore : p + 1 < 256
      · rw [if_pos hmore]
        have hlt : p.toNat + 1 < 256 := by
          rw [← hadd]
          exact UInt32.lt_iff_toNat_lt.mp hmore
        obtain ⟨h₁, hset, hlen, hcount⟩ := setScacheState_counter (i := 4 * kind) (p + 1) hc.length (by omega)
        have hmiss : h₁.counter (4 * kind + 1) = h.counter (4 * kind + 1) := by rw [hcount, if_neg (by omega)]
        have hprobe : h₁.counter (4 * kind) = p.toNat + 1 := by rw [hcount, if_pos rfl, hadd]
        have hinv : CountersInv h₁ := by
          apply hc.changed kind hlen
          · intro j h0 _ _
            rw [hcount, if_neg h0]
          · rw [hmiss, hprobe, hcount, if_neg (by omega)]
            omega
        apply hset.bind_meets
        refine meets_pure ⟨hinv, fun _ => ⟨hkind, hinv, ?_⟩⟩
        omega
      · rw [if_neg hmore]
        obtain ⟨missed, hmissed, -⟩ := scacheStateAt_counter (i := 4 * kind + 1) hc.length (by omega)
        apply hmissed.bind_meets
        -- the window is over: its two counters start again
        have hrest : ∀ h₁, CountersInv h₁ → Meets (do
            setScacheState (4 * kind) 0
            setScacheState (4 * kind + 1) 0
            pure true) h₁ (fun on h' => CountersInv h' ∧ (on = true → kind < 4 ∧ Probed h' kind))
              fun _ h' => CountersInv h' := by
          intro h₁ hc₁
          obtain ⟨h₂, hset₂, hlen₂, hcount₂⟩ := setScacheState_counter (i := 4 * kind) 0 hc₁.length (by omega)
          obtain ⟨h₃, hset₃, hlen₃, hcount₃⟩ := setScacheState_counter (i := 4 * kind + 1) 0 hlen₂ (by omega)
          have hprobe : h₃.counter (4 * kind) = 0 := by rw [hcount₃, if_neg (by omega), hcount₂, if_pos rfl]; rfl
          have hmiss : h₃.counter (4 * kind + 1) = 0 := by rw [hcount₃, if_pos rfl]; rfl
          have hinv : CountersInv h₃ := by
            apply hc₁.changed kind hlen₃
            · intro j h0 h1 _
              rw [hcount₃, if_neg h1, hcount₂, if_neg h0]
            · rw [hprobe, hmiss, hcount₃, if_neg (by omega), hcount₂, if_neg (by omega)]
              have := hc₁.ok kind hkind
              omega
          apply hset₂.bind_meets
          apply hset₃.bind_meets
          exact meets_pure ⟨hinv, fun _ => ⟨hkind, hinv, by omega⟩⟩
        by_cases hmost : missed > 128
        · rw [if_pos hmost]
          obtain ⟨h₁, hset, hlen, hcount⟩ := setScacheState_counter (i := 4 * kind + 2) 4096 hc.length (by omega)
          apply hset.bind_meets
          apply hrest
          apply hc.changed kind hlen
          · intro j _ _ h2
            rw [hcount, if_neg h2]
          · rw [hcount, hcount, hcount, if_neg (by omega), if_neg (by omega), if_pos rfl]
            exact ⟨hp, hm, le_refl 4096⟩
        · rw [if_neg hmost]
          exact hrest h hc
  · apply ((scacheStateAt_beyond (Q := fun _ _ => False) hc.length (by omega)).mono (fun _ _ hf => hf)
      fun _ _ heq => heq ▸ hc).bind
    intro _ _ hf
    exact hf.elim

/-- A miss is counted for a probe. -/
theorem scacheMissed_counters (hkind : kind < 4) (hp : Probed h kind) :
    ∃ h', Returns (scacheMissed kind) h () h' ∧ CountersInv h' := by
  obtain ⟨hprobes, -, hskip⟩ := hp.inv.ok kind hkind
  have hroom := hp.room
  obtain ⟨k, hget, hk⟩ := scacheStateAt_counter (i := 4 * kind + 1) hp.inv.length (by omega)
  obtain ⟨h', hset, hlen, hcount⟩ := setScacheState_counter (i := 4 * kind + 1) (k + 1) hp.inv.length (by omega)
  have hadd : (k + 1).toNat = k.toNat + 1 := by
    rw [UInt32.toNat_add]
    change (k.toNat + 1) % 2^32 = k.toNat + 1
    omega
  refine ⟨h', hget.bind hset, hp.inv.changed kind hlen ?_ ?_⟩
  · intro j _ h1 _
    rw [hcount, if_neg h1]
  · rw [hcount, hcount, hcount, if_neg (by omega), if_pos rfl, if_neg (by omega), hadd]
    omega

/-! ## The counters over a call -/

/-- The counters are left alone. -/
def CountersSame (h h' : StrHeap) : Prop := h'.scacheState = h.scacheState

instance : Std.Refl CountersSame where
  refl _ := rfl

instance : IsTrans StrHeap CountersSame where
  trans _ _ _ hk hk' := Eq.trans hk' hk

instance : StringSteps CountersSame where
  newArr _ _ := rfl
  newStr _ _ := rfl
  newBuf _ _ := rfl
  setArr _ _ _ := rfl
  setBuf _ _ _ := rfl
  charStrs _ _ _ := rfl
  setStr _ _ _ _ _ _ := rfl
  setHash _ _ _ _ _ hk _ _ := hk

theorem Probed.same (hp : Probed h kind) (hs : CountersSame h h') : Probed h' kind := by
  refine ⟨hp.inv.of_eq hs, ?_⟩
  unfold StrHeap.counter
  rw [hs]
  exact hp.room

/-- A step that leaves the counters alone, before one that starts from a probe. -/
theorem Probed.bind {α β : Type} {x : StrM α} {f : α → StrM β} (hp : Probed h kind) (hx : Moves CountersSame x)
    (hf : ∀ a h', Probed h' kind → Meets (f a) h' (fun _ h' => CountersInv h') fun _ h' => CountersInv h') :
    Meets (x >>= f) h (fun _ h' => CountersInv h') fun _ h' => CountersInv h' := by
  have hmeets : Meets x h (fun _ h' => Probed h' kind) fun _ h' => CountersInv h' :=
    (hx h).mono (fun _ _ hs => hp.same hs) fun _ _ hs => hp.inv.of_eq hs
  exact hmeets.bind hf

/-- The new string of a miss. -/
theorem missed_counters (hkind : kind < 4) (hp : Probed h kind) (o : StrObj) (slot : ℕ) :
    Meets (do
      scacheMissed kind
      let s ← newStr o
      let h ← get
      let cache ← orTrap (setAt h.scache slot (some s))
      set { h with scache := cache }
      pure s) h (fun _ h' => CountersInv h') fun _ h' => CountersInv h' := by
  obtain ⟨h₁, hret, hc₁⟩ := scacheMissed_counters hkind hp
  apply hret.bind_meets
  have hnew : Meets (newStr o) h₁ (fun _ h' => CountersInv h') fun _ h' => CountersInv h' :=
    (newStr_moves (R := CountersSame) o h₁).mono (fun _ _ hs => hc₁.of_eq hs) fun _ _ hs => hc₁.of_eq hs
  apply hnew.bind
  intro s h₂ hc₂
  apply meets_get_bind
  cases setAt h₂.scache slot (some s) with
  | none => exact meets_throw hc₂
  | some cache => exact meets_pure_bind (meets_set_bind (meets_pure (hc₂.of_eq rfl)))

theorem strOfBytesCached_counters (out : ℕ) (hkind : kind < 4) (hp : Probed h kind) :
    Meets (strOfBytesCached out kind) h (fun _ h' => CountersInv h') fun _ h' => CountersInv h' := by
  unfold strOfBytesCached
  apply hp.bind (arrOf_moves out)
  intro a h₁ hp₁
  apply hp₁.bind (scacheFind_moves _ _)
  intro c h₂ hp₂
  cases c with
  | some c => exact meets_pure hp₂.inv
  | none => exact missed_counters hkind hp₂ _ _

theorem strFromRangeCached_counters (src start len : ℕ) (hkind : kind < 4) (hp : Probed h kind) :
    Meets (strFromRangeCached src start len kind) h (fun _ h' => CountersInv h') fun _ h' => CountersInv h' := by
  unfold strFromRangeCached
  apply hp.bind (arrOf_moves src)
  intro a h₁ hp₁
  apply hp₁.bind (orTrap_moves _)
  intro x h₂ hp₂
  apply hp₂.bind (scacheFind_moves _ _)
  intro c h₃ hp₃
  cases c with
  | some c => exact meets_pure hp₃.inv
  | none =>
    apply hp₃.bind (arrOf_moves src)
    intro a h₄ hp₄
    apply hp₄.bind (orTrap_moves _)
    intro y h₅ hp₅
    apply hp₅.bind (newArr_moves _)
    intro r h₆ hp₆
    exact missed_counters hkind hp₆ _ _

/-- What keeps the counters in their bounds. -/
theorem moves_of_inv {α : Type} {x : StrM α}
    (hx : ∀ h, CountersInv h → Meets x h (fun _ h' => CountersInv h') fun _ h' => CountersInv h') :
    Moves CountersKept x := by
  intro h
  by_cases hc : CountersInv h
  · exact (hx h hc).mono (fun _ _ hc' _ => hc') fun _ _ hc' _ => hc'
  · unfold Meets
    split
    · exact fun hc' => absurd hc' hc
    · exact fun hc' => absurd hc' hc

theorem strOfBytes_counters (out kind : ℕ) : Moves CountersKept (strOfBytes out kind) := by
  have hcached : Moves CountersKept (do
      let on ← scacheOn kind
      if on then strOfBytesCached out kind else newStr ⟨some out, 0, .flat⟩) := by
    apply moves_of_inv
    intro h hc
    apply (scacheOn_counters hc kind).bind
    rintro on h₁ ⟨hc₁, hon⟩
    split
    · rename_i htrue
      exact strOfBytesCached_counters out (hon htrue).1 (hon htrue).2
    · exact (newStr_moves (R := CountersSame) _ h₁).mono (fun _ _ hs => hc₁.of_eq hs) fun _ _ hs => hc₁.of_eq hs
  unfold strOfBytes
  apply (arrOf_moves out).bind
  intro a
  split
  · exact newStr_moves _
  split
  · exact charStr_moves _
  split
  · exact newStr_moves _
  · exact hcached

instance : CacheSteps CountersKept where
  strOfBytes := strOfBytes_counters

theorem strFromRange_counters (src start len kind : ℕ) : Moves CountersKept (strFromRange src start len kind) := by
  unfold strFromRange
  apply (arrOf_moves src).bind
  intro a
  split
  · exact (orTrap_moves _).bind fun _ => charStr_moves _
  · apply moves_of_inv
    intro h hc
    have hon : Meets (if len ≤ 40 ∧ 2 ≤ len then scacheOn kind else pure false) h
        (fun on h' => CountersInv h' ∧ (on = true → kind < 4 ∧ Probed h' kind)) fun _ h' => CountersInv h' := by
      split
      · exact scacheOn_counters hc kind
      · exact meets_pure ⟨hc, fun hf => by cases hf⟩
    apply hon.bind
    rintro on h₁ ⟨hc₁, hon⟩
    split
    · rename_i htrue
      exact strFromRangeCached_counters src start len (hon htrue).1 (hon htrue).2
    · have hnew : Moves CountersSame (do
          let x ← orTrap (takeRange a start len)
          let out ← newArr x
          newStr ⟨some out, 0, .flat⟩) :=
        (orTrap_moves _).bind fun _ => (newArr_moves _).bind fun _ => newStr_moves _
      exact (hnew h₁).mono (fun _ _ hs => hc₁.of_eq hs) fun _ _ hs => hc₁.of_eq hs

theorem CacheOp.counters (op : CacheOp) : Moves CountersKept (op.run host) := by
  cases op with
  | call op => exact StrOp.moves_of host op
  | range src start len kind => exact moves_map _ (strFromRange_counters src start len kind)

theorem countersInv_init : CountersInv StrHeap.init := by
  refine ⟨rfl, ?_⟩
  intro kind hkind
  have hzero : ∀ i, StrHeap.init.counter i = 0 := by
    intro i
    change ((List.replicate 16 (0 : UInt32)).getD i 0).toNat = 0
    rw [List.getD_eq_getElem?_getD, List.getElem?_replicate]
    split <;> rfl
  rw [hzero, hzero, hzero]
  omega

theorem CacheRun.counters (hrun : CacheRun host h hist) : CountersInv h := by
  induction hrun with
  | init => exact countersInv_init
  | @step h h' hist op r hrun hl hs ih =>
    have hmoves : Meets (op.run host) h (fun _ h' => CountersKept h h') fun _ h' => CountersKept h h' :=
      op.counters h
    cases r with
    | ok r => exact hmoves.of_ok hs ih
    | error e => exact hmoves.of_error hs ih

/-- Whatever calls and requests a program makes, in whatever order, every request gave a string with exactly the
bytes that were asked for, one assignment of bytes to strings explains everything that was read of them, and the
counters of the cache are in their bounds. -/
theorem cached_strings_exact (host : HostFmt) (h : StrHeap) (hist : List (StrOp × Except Fault StrResult))
    (hrun : CacheRun host h hist) :
    (∃ val : ℕ → List UInt8, ∀ e ∈ hist, Explains host val e.1 e.2) ∧ CountersOk h := by
  obtain ⟨vals, -, hall⟩ := hrun.explained
  exact ⟨⟨valOf vals, fun e he => (hall e he).2⟩, hrun.counters.ok⟩

/-- Calls and requests, one after the other, with what was asked for and what came of it. -/
def StrHeap.requests (host : HostFmt) (h : StrHeap) : List CacheOp → StrHeap × List (StrOp × Except Fault StrResult)
  | [] => (h, [])
  | op :: ops =>
    match ((op.run host).run h : Except Fault StrResult × StrHeap) with
    | (r, h') => ((h'.requests host ops).1, (op.asked h, r) :: (h'.requests host ops).2)

/-- Each is legal when it is made. -/
def StrHeap.RequestsLegal (host : HostFmt) (h : StrHeap) : List CacheOp → Prop
  | [] => True
  | op :: ops => op.Legal h ∧ ((op.run host).run h : Except Fault StrResult × StrHeap).2.RequestsLegal host ops

instance (op : CacheOp) : Decidable (op.Legal h) :=
  match op with
  | .call op => inferInstanceAs (Decidable (op.Legal h))
  | .range src start len kind => inferInstanceAs (Decidable
      (src < h.arrs.length ∧ start + len ≤ (h.arrs.getD src []).length ∧ len < 2^31 ∧ kind < 4))

instance decidableRequestsLegal : (h : StrHeap) → (ops : List CacheOp) → Decidable (h.RequestsLegal host ops)
  | _, [] => inferInstanceAs (Decidable True)
  | _, _ :: ops => @instDecidableAnd _ _ _ (decidableRequestsLegal _ ops)

theorem CacheRun.requests (hrun : CacheRun host h hist) (ops : List CacheOp) (hl : h.RequestsLegal host ops) :
    CacheRun host (h.requests host ops).1 (hist ++ (h.requests host ops).2) := by
  induction ops generalizing h hist with
  | nil =>
    unfold StrHeap.requests
    rw [List.append_nil]
    exact hrun
  | cons op ops ih =>
    have hnext := ih (hrun.step hl.1 rfl) hl.2
    rw [List.append_assoc] at hnext
    exact hnext

/-- Two strings of eight bytes that differ where the slot does not look, so that they share one, asked for in turn. -/
def sharingSlot : List CacheOp :=
  [.call (.make [97, 98, 99, 100, 101, 102, 103, 104] false), .call (.make [97, 98, 120, 100, 101, 102, 103, 104] false),
    .range 0 0 8 1, .range 1 0 8 1, .range 0 0 8 1, .call (.bytes 2), .call (.bytes 3), .call (.bytes 4)]

theorem cached_strings_exact_sharingSlot :
    (∃ val : ℕ → List UInt8, ∀ e ∈ (StrHeap.init.requests zeroHost sharingSlot).2, Explains zeroHost val e.1 e.2) ∧
      CountersOk (StrHeap.init.requests zeroHost sharingSlot).1 := by
  have hlegal : StrHeap.init.RequestsLegal zeroHost sharingSlot := by
    set_option maxRecDepth 20000 in
    decide
  exact cached_strings_exact zeroHost _ _ (CacheRun.init.requests sharingSlot hlegal)

end Lua2wasm.Strings
