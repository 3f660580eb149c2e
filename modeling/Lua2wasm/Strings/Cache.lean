import Lua2wasm.Strings.Flatten

/-!
# The cache of short strings

A short string may come from the cache, and then it is a string that was there before, with the same
bytes (`strOfBytes_spec`). The two tables of the cache refer to strings by identity; a string of a
single byte has that byte, and any other string is compared before it is used.
-/

namespace Lua2wasm.Strings

open Raising
open Table (strHash setAt_of_lt)

variable {h h' : StrHeap} {vals : List (List UInt8)} {s r out : ℕ} {x a : List UInt8}
  {E : Table.Fault → StrHeap → Prop}

/-- A string with the bytes `x` has come of it. -/
def Made (vals : List (List UInt8)) (x : List UInt8) (s : ℕ) (h : StrHeap) : Prop :=
  ∃ vals', vals <+: vals' ∧ Holds h vals' ∧ vals'[s]? = some x

/-- The arrays and the buffers that there were are as they were. -/
structure Kept (h h' : StrHeap) : Prop where
  /-- The arrays. -/
  arrs : h.arrs <+: h'.arrs
  /-- The buffers. -/
  bufs : h'.bufs = h.bufs

theorem Kept.refl : Kept h h := ⟨List.prefix_rfl, rfl⟩

theorem Kept.trans {h'' : StrHeap} (hk : Kept h h') (hk' : Kept h' h'') : Kept h h'' :=
  ⟨hk.arrs.trans hk'.arrs, hk'.bufs.trans hk.bufs⟩

theorem Reads.kept (hr : Reads h h') : Kept h h' := ⟨hr.arrs, hr.bufs⟩

theorem kept_newArr : Kept h { h with arrs := h.arrs ++ [a] } := ⟨List.prefix_append _ _, rfl⟩

/-- A plain string over an array that no buffer has. -/
theorem newStr_made (hash : UInt32) (hh : Holds h vals) (ha : h.arrs[r]? = some x) (hshort : x.length < 2^31)
    (hfree : ∀ (b : ℕ) (B : StrBuf), h.bufs[b]? = some B → B.arr ≠ r) (hhash : hash ≠ 0 → hash = strHash x) :
    Meets (newStr ⟨some r, hash, .flat⟩) h (fun s h' => Made vals x s h' ∧ Kept h h') E := by
  have hobj : ObjOk h vals h.strs.length ⟨some r, hash, .flat⟩ x := by
    refine ⟨hshort, hhash, ?_, ?_, ?_, ?_, ?_⟩
    · intro q hq
      cases hq
      exact ha
    · intro hb
      cases hb
    · intro len left right hkind
      cases hkind
    · intro len buf hkind
      cases hkind
    · intro len b hkind
      cases hkind
  refine newStr_returns.meets ⟨⟨vals ++ [x], List.prefix_append _ _, hh.newStr hobj ?_, ?_⟩, List.prefix_rfl, rfl⟩
  · intro q hq
    cases hq
    exact hfree
  · rw [← hh.length]
    simp

/-- The caches are not part of what the strings stand for. -/
theorem Holds.setCache {sc : List (Option ℕ)} {st : List UInt32} {cs : List (Option ℕ)} (hh : Holds h vals)
    (hchars : ∀ (i s : ℕ), cs[i]? = some (some s) → vals[s]? = some [i.toUInt8])
    (hcached : ∀ (i s : ℕ), sc[i]? = some (some s) → s < h.strs.length)
    (hsizes : cs.length = 256 ∧ sc.length = 4096 ∧ st.length = 16) :
    Holds { h with scache := sc, scacheState := st, charStrs := cs } vals where
  length := hh.length
  strs s o x ho hx :=
    have hok := hh.strs s o x ho hx
    ⟨hok.short, hok.hash, hok.bytes, hok.flat, hok.rope, hok.unread, hok.buf⟩
  bufs := hh.bufs
  own := hh.own
  apart := hh.apart
  chars := hchars
  cached := hcached
  sizes := hsizes

/-- `$char_str`. -/
theorem charStr_spec (hh : Holds h vals) (c : UInt8) :
    Meets (charStr c) h (fun s h' => Made vals [c] s h' ∧ Kept h h') E := by
  obtain ⟨hchars, hsc, hst⟩ := hh.sizes
  have hlt : c.toNat < h.charStrs.length := by
    have := c.toNat_lt
    omega
  unfold charStr
  apply meets_get_bind
  apply (orTrap_returns (List.getElem?_eq_getElem hlt)).bind_meets
  cases hc : h.charStrs[c.toNat] with
  | some s =>
    apply meets_pure
    refine ⟨⟨vals, List.prefix_rfl, hh, ?_⟩, Kept.refl⟩
    have hval := hh.chars c.toNat s (by rw [List.getElem?_eq_getElem hlt, hc])
    simpa using hval
  | none =>
    apply newArr_returns.bind_meets
    have hself : (h.arrs ++ [[c]])[h.arrs.length]? = some [c] := by
      simp
    have hmade := newStr_made (E := E) (strHash [c]) (hh.newArr [c]) hself (by simp)
      (fun b B hB => (hh.private_newArr [c]).buf b B hB) (fun _ => rfl)
    apply hmade.bind
    rintro s h' ⟨⟨vals', hpre, hh', hs⟩, hkept⟩
    apply meets_modify_bind
    apply meets_pure
    refine ⟨⟨vals', hpre, ?_, hs⟩, (kept_newArr.trans hkept).arrs, (kept_newArr.trans hkept).bufs⟩
    apply hh'.setCache _ hh'.cached
    · rw [List.length_set]
      exact hh'.sizes
    · intro i t hi
      obtain ⟨rfl, heq⟩ | ⟨-, hi⟩ := Probe.of_getElem?_set hi
      · cases heq
        rw [hs]
        simp
      · exact hh'.chars i t hi

/-- `$scache_on` changes the state of the cache only. -/
theorem scacheOn_spec {kind : ℕ} (hh : Holds h vals) (hkind : kind < 4) :
    Meets (scacheOn kind) h (fun _ h' => Holds h' vals ∧ Reads h h') E := by
  have hat : ∀ (h : StrHeap) (i : ℕ), h.scacheState.length = 16 → i < 16 →
      ∃ x, Returns (scacheStateAt i) h x h := by
    intro h i hlen hi
    refine ⟨_, returns_get_bind (orTrap_returns (List.getElem?_eq_getElem (by omega)))⟩
  have hset : ∀ (h : StrHeap) (i : ℕ) (x : UInt32), Holds h vals → i < 16 →
      ∃ h', Returns (setScacheState i x) h () h' ∧ Holds h' vals ∧ Reads h h' := by
    intro h i x hh hi
    have hlen := hh.sizes.2.2
    refine ⟨{ h with scacheState := h.scacheState.set i x }, ?_, ?_, ?_⟩
    · unfold setScacheState
      apply returns_get_bind
      exact (orTrap_returns (setAt_of_lt (by omega))).bind rfl
    · apply hh.setCache hh.chars hh.cached
      rw [List.length_set]
      exact hh.sizes
    · exact ⟨List.prefix_rfl, rfl, rfl, fun _ o _ ho hr _ => ⟨o, ho, hr⟩⟩
  have hlen := hh.sizes.2.2
  obtain ⟨skip, hskip⟩ := hat h (4 * kind + 2) hlen (by omega)
  unfold scacheOn
  apply hskip.bind_meets
  split
  · obtain ⟨h₁, hret, hh₁, hreads⟩ := hset h (4 * kind + 2) (skip - 1) hh (by omega)
    apply hret.bind_meets
    exact meets_pure ⟨hh₁, hreads⟩
  · obtain ⟨p, hp⟩ := hat h (4 * kind) hlen (by omega)
    apply hp.bind_meets
    split
    · obtain ⟨h₁, hret, hh₁, hreads⟩ := hset h (4 * kind) (p + 1) hh (by omega)
      apply hret.bind_meets
      exact meets_pure ⟨hh₁, hreads⟩
    · obtain ⟨missed, hmissed⟩ := hat h (4 * kind + 1) hlen (by omega)
      apply hmissed.bind_meets
      -- the window is over: its two counters start again
      have hrest : ∀ h₁, Holds h₁ vals → Reads h h₁ → Meets (do
          setScacheState (4 * kind) 0
          setScacheState (4 * kind + 1) 0
          pure true) h₁ (fun _ h' => Holds h' vals ∧ Reads h h') E := by
        intro h₁ hh₁ hreads₁
        obtain ⟨h₂, hret₂, hh₂, hreads₂⟩ := hset h₁ (4 * kind) 0 hh₁ (by omega)
        obtain ⟨h₃, hret₃, hh₃, hreads₃⟩ := hset h₂ (4 * kind + 1) 0 hh₂ (by omega)
        apply hret₂.bind_meets
        apply hret₃.bind_meets
        exact meets_pure ⟨hh₃, (hreads₁.trans hreads₂).trans hreads₃⟩
      split
      · obtain ⟨h₁, hret, hh₁, hreads⟩ := hset h (4 * kind + 2) 4096 hh (by omega)
        apply hret.bind_meets
        exact hrest h₁ hh₁ hreads
      · exact hrest h hh Reads.refl

/-- `$scache_missed`. -/
theorem scacheMissed_spec {kind : ℕ} (hh : Holds h vals) (hkind : kind < 4) :
    ∃ h', Returns (scacheMissed kind) h () h' ∧ Holds h' vals ∧ Reads h h' := by
  have hlen := hh.sizes.2.2
  have hget : h.scacheState[4 * kind + 1]? = some h.scacheState[4 * kind + 1] :=
    List.getElem?_eq_getElem (by omega)
  refine ⟨{ h with scacheState := h.scacheState.set (4 * kind + 1) (h.scacheState[4 * kind + 1] + 1) }, ?_, ?_, ?_⟩
  · unfold scacheMissed scacheStateAt setScacheState
    apply Returns.bind (returns_get_bind (orTrap_returns hget))
    apply returns_get_bind
    exact (orTrap_returns (setAt_of_lt (by omega))).bind rfl
  · apply hh.setCache hh.chars hh.cached
    rw [List.length_set]
    exact hh.sizes
  · exact ⟨List.prefix_rfl, rfl, rfl, fun _ o _ ho hr _ => ⟨o, ho, hr⟩⟩

theorem scacheSlot_lt (src : List UInt8) : scacheSlot src < 4096 := by
  unfold scacheSlot
  dsimp only
  generalize (_ : UInt32) * 2246822507 = m
  rw [UInt32.toNat_shiftRight]
  have := m.toNat_lt
  simp only [UInt32.reduceToNat, Nat.reduceMod, Nat.shiftRight_eq_div_pow]
  omega

/-- `$scache_find` finds a string with the bytes, or none. -/
theorem scacheFind_spec {slot : ℕ} (hh : Holds h vals) (hslot : slot < 4096) :
    ∃ c h', Returns (scacheFind a slot) h c h' ∧ Holds h' vals ∧ Reads h h' ∧
      ∀ s, c = some s → vals[s]? = some a := by
  have hlen := hh.sizes.2.1
  have hget : h.scache[slot]? = some h.scache[slot] := List.getElem?_eq_getElem (by omega)
  unfold scacheFind
  cases hc : h.scache[slot] with
  | none =>
    rw [hc] at hget
    refine ⟨none, h, returns_get_bind ((orTrap_returns hget).bind rfl), hh, Reads.refl, ?_⟩
    intro s hs
    cases hs
  | some c =>
    rw [hc] at hget
    obtain ⟨x, hx⟩ := hh.val (hh.cached slot c hget)
    obtain ⟨r, h', hret, hh', hreads, hr, -⟩ := strBytes_spec hh hx
    have hcmp : ∃ d, Returns (if x.length ≠ a.length then (pure none : StrM (Option ℕ))
        else if (List.range a.length).all fun i => x[i]? = a[i]? then pure (some c) else pure none) h' d h' ∧
        ∀ s, d = some s → vals[s]? = some a := by
      split
      · exact ⟨none, rfl, fun s hs => by cases hs⟩
      · rename_i heq
        split
        · rename_i hall
          refine ⟨some c, rfl, ?_⟩
          intro s hs
          cases hs
          simp only [List.all_eq_true, List.mem_range, decide_eq_true_eq] at hall
          have hxa : x = a := by
            apply List.ext_getElem?
            intro i
            by_cases hi : i < a.length
            · exact hall i hi
            · rw [List.getElem?_eq_none (by omega), List.getElem?_eq_none (by omega)]
          rw [hx, hxa]
        · exact ⟨none, rfl, fun s hs => by cases hs⟩
    obtain ⟨d, hd, hval⟩ := hcmp
    refine ⟨d, h', ?_, hh', hreads, hval⟩
    apply returns_get_bind
    exact (orTrap_returns hget).bind (hret.bind ((arrOf_returns hr).bind hd))

/-- `$str_of_bytes` on an array that nothing has makes a string with the bytes of the array. -/
theorem strOfBytes_spec {kind : ℕ} (hh : Holds h vals) (ha : h.arrs[out]? = some a) (hp : Private h out)
    (hshort : a.length < 2^31) (hkind : kind < 4) :
    Meets (strOfBytes out kind) h (fun s h' => Made vals a s h' ∧ Kept h h') E := by
  -- without the cache the array becomes a new string
  have hplain : ∀ h', Holds h' vals → Reads h h' →
      Meets (newStr ⟨some out, 0, .flat⟩) h' (fun s h'' => Made vals a s h'' ∧ Kept h h'') E := by
    intro h' hh' hreads
    have hmade := newStr_made (E := E) 0 hh' (getElem?_of_initial hreads.arrs ha) hshort
      (hreads.private ha hp).buf (fun hne => absurd rfl hne)
    exact hmade.mono (fun s h'' hs => ⟨hs.1, hreads.kept.trans hs.2⟩) fun _ _ he => he
  unfold strOfBytes
  apply (arrOf_returns ha).bind_meets
  split
  · exact hplain h hh Reads.refl
  · split
    · rename_i hone
      obtain ⟨c, rfl⟩ := List.length_eq_one_iff.mp hone
      exact charStr_spec hh c
    · split
      · exact hplain h hh Reads.refl
      · apply (scacheOn_spec hh hkind).bind
        rintro on h₁ ⟨hh₁, hreads₁⟩
        split
        -- the cache is asked, and keeps the string when it has none
        · have ha₁ := getElem?_of_initial hreads₁.arrs ha
          obtain ⟨c, h₂, hret₂, hh₂, hreads₂, hval⟩ := scacheFind_spec (a := a) hh₁ (scacheSlot_lt a)
          unfold strOfBytesCached
          apply (arrOf_returns ha₁).bind_meets
          apply hret₂.bind_meets
          cases c with
          | some c => exact meets_pure ⟨⟨vals, List.prefix_rfl, hh₂, hval c rfl⟩, (hreads₁.trans hreads₂).kept⟩
          | none =>
            obtain ⟨h₃, hret₃, hh₃, hreads₃⟩ := scacheMissed_spec hh₂ hkind
            apply hret₃.bind_meets
            apply (hplain h₃ hh₃ ((hreads₁.trans hreads₂).trans hreads₃)).bind
            rintro s h₄ ⟨⟨vals', hpre, hh₄, hs⟩, hkept⟩
            apply meets_get_bind
            have hlen := hh₄.sizes.2.1
            have hslot := scacheSlot_lt a
            apply (orTrap_returns (setAt_of_lt (by omega))).bind_meets
            apply meets_set_bind
            apply meets_pure
            refine ⟨⟨vals', hpre, ?_, hs⟩, hkept.arrs, hkept.bufs⟩
            apply hh₄.setCache hh₄.chars
            · intro i t hi
              obtain ⟨-, heq⟩ | ⟨-, hi⟩ := Probe.of_getElem?_set hi
              · cases heq
                exact hh₄.lt hs
              · exact hh₄.cached i t hi
            · rw [List.length_set]
              exact hh₄.sizes
        · exact hplain h₁ hh₁ hreads₁

end Lua2wasm.Strings
