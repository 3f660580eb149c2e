import Lua2wasm.Heap.Hole

/-!
# The calls

What `malloc` and `free` do to a heap that satisfies the invariant. `malloc` returns null and leaves
the heap as it is, or it returns the payload of a block that is new among those in use. It does so
for every request that does not wrap: the block's size is computed in 32 bits, and so is the break
that the block would move (`Serves`).
-/

namespace Lua2wasm.Heap

open ByteMem Fallible

variable {s : HeapState} {xs ys bs : List Block} {lo hi : ℕ} {fl : List ℕ} {b c : Block} {m m' : Mem}

/-- The size of a block that serves a request, without a bound. -/
def blockSize (req : ℕ) : ℕ := 16 + max ((max req 1 + 7) / 8 * 8) 16

/-- Serving the request makes nothing wrap: its size fits 32 bits, and either a free block is large
enough or the break stays below `2^32`. -/
def Serves (s : HeapState) (bs : List Block) (req : ℕ) : Prop :=
  req ≤ 0xffffffe8 ∧
    ((∃ b ∈ bs, b.used = false ∧ blockSize req ≤ b.size) ∨ s.brk + blockSize req < 2^32)

theorem blockSize_wf (req start : ℕ) (used : Bool) : Block.Wf ⟨start, blockSize req, used⟩ := by
  constructor
  · change blockSize req % 8 = 0
    unfold blockSize
    omega
  · change 32 ≤ blockSize req
    unfold blockSize
    omega

theorem le_blockSize (req : ℕ) : req + 16 ≤ blockSize req := by
  unfold blockSize
  omega

/-- Up to the bound, the size is computed without wrapping. -/
theorem blockTotal_eq {req : ℕ} (h : req ≤ 0xffffffe8) :
    blockTotal (if req = 0 then 1 else req) = blockSize req := by
  have hmax : (if req = 0 then 1 else req) = max req 1 := by
    split_ifs <;> omega
  rw [hmax]
  unfold blockTotal blockSize alignUp u32 hdr minPayload ftr
  omega

/-! ## Neighbours -/

/-- The neighbours of a free block are in use. -/
theorem Layout.neighbours (h : Layout lo (xs ++ b :: ys) hi) (hfree : b.used = false) :
    (∀ x ∈ xs.getLast?, x.used = true) ∧ ∀ y ∈ ys.head?, y.used = true := by
  obtain ⟨-, hys, hxs⟩ := List.isChain_append.mp h.merged
  constructor
  · intro x hx
    simpa [hfree] using hxs x hx b rfl
  · intro y hy
    simpa [hfree] using (List.isChain_cons.mp hys).1 y hy

/-- The free list is shorter than memory. -/
theorem HeapWf.length_lt (h : HeapWf s bs fl) : fl.length < 2^32 := by
  have hlen := h.layout.length
  have hfl := h.exact.length_eq
  have hle : (freeStarts bs).length ≤ bs.length := by
    unfold freeStarts
    rw [List.length_map]
    exact List.length_filter_le _ _
  have := h.ok.brk_lt
  omega

/-! ## The break -/

/-- `heap_extend` fails and changes nothing, or moves the break. -/
theorem heapExtend_spec (h : HeapWf s bs fl) (granted : Bool) {n : ℕ} (hn : 0 < n)
    (hfit : s.brk + n < 2^32) : heapExtend granted n s = some (0, s) ∨
      ∃ pages, s.pages ≤ pages ∧
        let s' := { s with pages := pages, endPtr := u32 (pages * page), brk := s.brk + n }
        heapExtend granted n s = some (s.brk, s') ∧ Hole s' bs [] s.brk (s.brk + n) fl := by
  have hok := h.ok
  have hpage : s.committed = s.pages * page := rfl
  have hpos := hok.pages_pos
  have hple := hok.pages_le
  have hend := hok.endPtr
  have hsum : u32 (s.brk + n) = s.brk + n := u32_of_lt hfit
  -- The state with the break moved is one with a hole, whatever the pages.
  have hhole (pages : ℕ) (hge : s.pages ≤ pages) (hle : pages ≤ 2^16)
      (hin : s.brk + n ≤ pages * page) :
      Hole { s with pages := pages, endPtr := u32 (pages * page), brk := s.brk + n } bs []
        s.brk (s.brk + n) fl := by
    refine ⟨⟨hok.inited, hok.aligned, hok.pos, hfit, hin, hpos.trans_le hge, hle, rfl⟩, h.layout,
      ⟨rfl, by simp, .nil⟩, by omega, by simpa using h.tagged,
      ⟨h.free.head, h.free.linked, h.free.spaced, fun x hx => ?_⟩, by simpa using h.exact⟩
    have h₁ := h.free.inside x hx
    have h₂ : s.pages * page ≤ pages * page := Nat.mul_le_mul_right _ hge
    change x + 16 ≤ pages * page
    omega
  by_cases hgt : s.brk + n > s.endPtr
  · -- Memory has to grow by so many pages.
    obtain ⟨delta, hdelta⟩ : ∃ d, d = u32 (sub32 (s.brk + n) s.endPtr + (page - 1)) / page := ⟨_, rfl⟩
    have hrun : heapExtend granted n s =
        if granted ∧ s.pages + delta ≤ 2^16 then some (s.brk, { s with
          pages := s.pages + delta, endPtr := u32 (s.endPtr + delta * page), brk := s.brk + n })
        else some (0, s) := by
      unfold heapExtend
      rw [bind_some (show (get : HeapM HeapState) s = some (s, s) from rfl)]
      rw [hsum, if_pos hgt, ← hdelta]
      by_cases hg : granted ∧ s.pages + delta ≤ 2^16
      · have hgrow : memoryGrow granted delta s =
            some (true, { s with pages := s.pages + delta }) := if_pos hg
        rw [bind_some hgrow, if_pos hg]
        change some (s.brk, { s with
          pages := s.pages + delta, endPtr := _, brk := u32 (s.brk + n) }) = _
        rw [hsum]
      · have hgrow : memoryGrow granted delta s = some (false, s) := if_neg hg
        rw [bind_some hgrow, if_neg hg]
        rfl
    rw [hrun]
    split_ifs with hg
    · right
      refine ⟨s.pages + delta, Nat.le_add_right _ _, ?_, hhole _ (Nat.le_add_right _ _) hg.2 ?_⟩
      · have : u32 (s.endPtr + delta * page) = u32 ((s.pages + delta) * page) := by
          rw [hend, hpage]
          unfold u32
          rw [Nat.mod_add_mod, Nat.add_mul]
        rw [this]
      · -- At the full 4 GiB the end pointer is 0, and below that nothing wraps.
        unfold page sub32 u32 at *
        rcases Nat.lt_or_ge s.pages (2^16) with hlt | hge
        · omega
        · omega
    · exact .inl rfl
  · right
    have hpages : s.brk + n ≤ s.pages * page := by
      unfold page u32 at *
      omega
    refine ⟨s.pages, le_refl _, ?_, hhole _ (le_refl _) hple hpages⟩
    unfold heapExtend
    rw [bind_some (show (get : HeapM HeapState) s = some (s, s) from rfl), hsum, if_neg hgt]
    change some (s.brk, { s with brk := u32 (s.brk + n) }) = _
    rw [hsum, ← hpage, ← hend]

/-! ## malloc -/

/-- `s'` serves the request with the block `b`: the block is new among those in use, and the others
are untouched. -/
structure Served (s : HeapState) (bs : List Block) (req : ℕ) (b : Block) (s' : HeapState)
    (bs' : List Block) (fl' : List ℕ) : Prop where
  wf : HeapWf s' bs' fl'
  used : b.used = true
  fresh : (usedOf bs').Perm (b :: usedOf bs)
  room : req + 16 ≤ b.size
  keeps : KeepsUsed s.mem s'.mem bs
  pages : s.pages ≤ s'.pages

/-- The block that `malloc` finds in the free list serves the request, split if it is large. -/
theorem serve_found (h : HeapWf s (xs ++ b :: ys) fl) (hfree : b.used = false) {req : ℕ}
    (hreq : blockSize req ≤ b.size) :
    ∃ s' size bs' fl', (do
        flRemove b.start
        let rem := sub32 b.size (blockSize req)
        if rem ≥ hdr + minPayload + ftr then do
          blkSet b.start (blockSize req) true
          let r := u32 (b.start + blockSize req)
          blkSet r rem false
          flInsert r
        else blkSet b.start b.size true
        pure (u32 (b.start + hdr)) : HeapM ℕ) s = some (b.start + 8, s') ∧
      Served s (xs ++ b :: ys) req ⟨b.start, size, true⟩ s' bs' fl' := by
  obtain ⟨hl, hr⟩ := h.layout.neighbours hfree
  have hwfb : b.Wf := h.layout.wf b (by simp)
  have hroom := hwfb.room
  have hal := hwfb.aligned
  have hfin : b.fin = b.start + b.size := rfl
  obtain ⟨mid, hmid⟩ := h.split
  obtain rfl : b.start = mid := hmid.right.tiles.1
  -- taking the block off the free list leaves a hole
  obtain ⟨m₁, fl₁, head, hrun₁, hhole, hkeep₁, -⟩ := hmid.absorbRight hfree
  have hblt := hhole.hi_le.trans_lt h.ok.brk_lt
  have hhdr : u32 (b.start + hdr) = b.start + 8 := u32_of_lt (by unfold hdr; omega)
  have hrem : sub32 b.size (blockSize req) = b.size - blockSize req := sub32_of_le hreq (by omega)
  have hsize := blockSize_wf req b.start true
  have hsal : blockSize req % 8 = 0 := hsize.aligned
  have hkeeps {m₂ : Mem} (h : KeepsUsed s.mem m₂ (xs ++ ys)) : KeepsUsed s.mem m₂ (xs ++ b :: ys) := by
    intro c hc
    rw [usedOf_append, usedOf_cons_free hfree, ← usedOf_append] at hc
    exact h c hc
  rw [bind_some hrun₁, hrem, hhdr]
  by_cases hsplit : b.size - blockSize req ≥ hdr + minPayload + ftr
  · -- The tail of the block stays free.
    obtain ⟨m₂, hrun₂, hhole₂, hkeep₂⟩ := hhole.take hsize (by omega)
    have hlt : b.start + blockSize req < 2^32 := by omega
    have hfree₃ : Block.Wf ⟨b.start + blockSize req, b.fin - (b.start + blockSize req), false⟩ := by
      unfold hdr minPayload ftr at hsplit
      constructor <;> dsimp only <;> omega
    obtain ⟨m₃, head₃, hrun₃, hwf₃, hkeep₃⟩ := hhole₂.release hfree₃
      (by rw [List.getLast?_append_of_ne_nil _ (by simp)]; simp) hr
    have hsz : b.fin - (b.start + blockSize req) = b.size - blockSize req := by omega
    rw [hsz] at hrun₃ hwf₃
    refine ⟨_, blockSize req, _, _, ?_, hwf₃, rfl, ?_, le_blockSize req, hkeeps ?_, le_refl _⟩
    · rw [if_pos hsplit, bind_some hrun₂, u32_of_lt hlt]
      have : ∀ k : PUnit → HeapM ℕ, (blkSet (b.start + blockSize req) (b.size - blockSize req) false >>=
          fun _ => flInsert (b.start + blockSize req) >>= k) =
          ((blkSet (b.start + blockSize req) (b.size - blockSize req) false >>=
            fun _ => flInsert (b.start + blockSize req)) >>= k) := fun k => (bind_assoc _ _ _).symm
      rw [this, bind_some hrun₃]
      rfl
    · rw [List.append_assoc, usedOf_append, List.singleton_append, usedOf_cons_used rfl,
        usedOf_cons_free rfl, usedOf_append, usedOf_cons_free hfree]
      exact List.perm_middle
    · refine (hkeep₁.trans hkeep₂).trans (hkeep₃.mono fun c hc => ?_)
      simp only [mem_usedOf] at hc ⊢
      simp only [List.mem_append] at hc ⊢
      tauto
  · -- The rest is too small, so the whole block is handed out.
    have hwfu : Block.Wf ⟨b.start, b.size, true⟩ := ⟨hal, hroom⟩
    obtain ⟨m₂, hrun₂, hhole₂, hkeep₂⟩ := hhole.take hwfu (le_of_eq hfin.symm)
    rw [← hfin] at hhole₂
    have hwf₂ := hhole₂.close (by
      intro x hx y hy
      exact .inr (hr y hy))
    refine ⟨_, b.size, _, _, ?_, hwf₂, rfl, ?_, ?_, hkeeps (hkeep₁.trans hkeep₂), le_refl _⟩
    · rw [if_neg hsplit, bind_some hrun₂]
      rfl
    · rw [List.append_assoc, usedOf_append, List.singleton_append, usedOf_cons_used rfl,
        usedOf_append, usedOf_cons_free hfree]
      exact List.perm_middle
    · have := le_blockSize req
      dsimp only
      omega

/-- `malloc` serves a request or returns null and leaves the heap as it is. -/
theorem malloc_spec (h : HeapWf s bs fl) (granted : Bool) {req : ℕ} (hreq : Serves s bs req) :
    malloc granted req s = some (0, s) ∨ ∃ s' b bs' fl',
      malloc granted req s = some (b.start + 8, s') ∧ Served s bs req b s' bs' fl' := by
  obtain ⟨hle, hfit⟩ := hreq
  have hinit : ensureInit s = some ((), s) := by
    unfold ensureInit HeapState.ensureInit
    rw [if_pos h.ok.inited]
  have hreq' : ¬ (if req = 0 then 1 else req) > 0xfffffff0 := by
    split_ifs <;> omega
  unfold malloc
  rw [bind_some hinit]
  rw [if_neg hreq', blockTotal_eq hle,
    bind_some (show (get : HeapM HeapState) s = some (s, s) from rfl), h.free.head]
  -- The free list has the sizes of its blocks.
  obtain ⟨size, hsizes⟩ : ∃ size : ℕ → ℕ, ∀ b ∈ bs, b.used = false → size b.start = b.size := by
    refine ⟨fun x => ((bs.find? fun b => b.start = x).map (·.size)).getD 0, fun b hb _ => ?_⟩
    cases hf : bs.find? fun c => c.start = b.start with
    | none => simpa using List.find?_eq_none.mp hf b hb
    | some c =>
      have hc := List.mem_of_find?_eq_some hf
      have hcs : c.start = b.start := by simpa using List.find?_some hf
      by_cases hne : b = c
      · dsimp only
        rw [hf, hne]
        rfl
      · have := apart_of_pairwise h.layout.tiles.pairwise hb hc hne
        have h₁ := (h.layout.wf b hb).room
        have h₂ := (h.layout.wf c hc).room
        unfold Block.fin at this
        omega
  have hblock (x : ℕ) (hx : x ∈ fl) : ∃ b ∈ bs, b.used = false ∧ b.start = x ∧ size x = b.size := by
    obtain ⟨b, hb, hfree, rfl⟩ := mem_freeStarts.mp (h.exact.subset hx)
    exact ⟨b, hb, hfree, rfl, hsizes b hb hfree⟩
  have htags : ∀ x ∈ fl, Tagged s.mem ⟨x, size x, false⟩ ∧ Block.Wf ⟨x, size x, false⟩ := by
    intro x hx
    obtain ⟨b, hb, hfree, rfl, hsz⟩ := hblock x hx
    rw [hsz, ← hfree]
    exact ⟨h.tagged b hb, h.layout.wf b hb⟩
  rcases firstFit_spec (blockSize req) h.free.linked h.length_lt htags h.free.inside
      h.ok.committed_le with ⟨hrun, hnone⟩ | ⟨x, hx, hge, hrun⟩
  · rw [bind_some hrun]
    dsimp only
    -- No free block is large enough, so the break moves.
    have hbrk : s.brk + blockSize req < 2^32 := by
      rcases hfit with ⟨b, hb, hfree, hge⟩ | hbrk
      · have hmem : b.start ∈ fl := h.exact.symm.subset (mem_freeStarts.mpr ⟨b, hb, hfree, rfl⟩)
        have := hnone _ hmem
        rw [hsizes b hb hfree] at this
        omega
      · exact hbrk
    have hsize := blockSize_wf req s.brk true
    rcases heapExtend_spec h granted (n := blockSize req) (by unfold blockSize; omega) hbrk with
      hext | ⟨pages, hpages, hext, hhole⟩
    · rw [bind_some hext]
      exact .inl rfl
    · right
      rw [bind_some hext]
      have hpos : s.brk ≠ 0 := by
        have h₁ := h.layout.tiles.le
        have h₂ := h.ok.pos
        omega
      obtain ⟨m₂, hrun₂, hhole₂, hkeep₂⟩ := hhole.take hsize (le_refl _)
      have hwf₂ := hhole₂.close (by simp)
      rw [if_neg hpos, bind_some hrun₂]
      have hhdr : u32 (s.brk + hdr) = s.brk + 8 := by
        have := le_blockSize req
        exact u32_of_lt (by unfold hdr; omega)
      rw [hhdr]
      refine ⟨_, ⟨s.brk, blockSize req, true⟩, _, _, rfl, hwf₂, rfl, ?_, le_blockSize req, ?_, hpages⟩
      · rw [List.append_nil, usedOf_append]
        exact List.perm_append_singleton _ _
      · simpa using hkeep₂
  · rw [bind_some hrun]
    right
    obtain ⟨b, hb, hfree, rfl, hsz⟩ := hblock x hx
    rw [hsz] at hge ⊢
    obtain ⟨xs, ys, rfl⟩ := List.append_of_mem hb
    obtain ⟨s', size, bs', fl', hrun', hserved⟩ := serve_found h hfree hge
    exact ⟨s', ⟨b.start, size, true⟩, bs', fl', hrun', hserved⟩

/-! ## free -/

/-- The first merge of `free`: afterwards the block to the right of the hole is in use. -/
theorem mergeNext_spec (h : Hole s xs ys lo hi fl) (hlt : lo < hi)
    (hmerged : ys.IsChain fun b b' => b.used = true ∨ b'.used = true) :
    ∃ m' head ys' hi' fl', mergeNext lo (hi - lo) s =
        some (hi' - lo, { s with mem := m', freeList := head }) ∧
      Hole { s with mem := m', freeList := head } xs ys' lo hi' fl' ∧ hi ≤ hi' ∧
      (hi' - lo) % 8 = (hi - lo) % 8 ∧ usedOf ys' = usedOf ys ∧
      (∀ y ∈ ys'.head?, y.used = true) ∧ KeepsUsed s.mem m' (xs ++ ys) := by
  have hbrk := h.hi_le
  have hblt := h.ok.brk_lt
  have hnext : u32 (lo + (hi - lo)) = hi := by
    rw [u32_of_lt (by omega)]
    omega
  unfold mergeNext
  rw [hnext, bind_some (show (get : HeapM HeapState) s = some (s, s) from rfl)]
  cases ys with
  | nil =>
    obtain rfl : hi = s.brk := h.right.tiles
    rw [if_neg (Nat.lt_irrefl _)]
    exact ⟨s.mem, s.freeList, [], s.brk, fl, rfl, h, le_refl _, rfl, rfl, by simp,
      fun c _ => SameOn.refl _ _ _⟩
  | cons y ys =>
    obtain ⟨rfl, hys⟩ := h.right.tiles
    have hwf := h.right.wf y List.mem_cons_self
    have hroom := hwf.room
    have hfin : y.fin = y.start + y.size := rfl
    have hle : y.fin ≤ s.brk := hys.le
    have hcom := h.ok.brk_le
    rw [if_pos (by omega), bind_some (blkUsed_eq (h.tagged y (by simp)) hwf (by omega))]
    cases hused : y.used with
    | true =>
      exact ⟨s.mem, s.freeList, y :: ys, y.start, fl, rfl, h, le_refl _, rfl, rfl, by simp [hused],
        fun c _ => SameOn.refl _ _ _⟩
    | false =>
      obtain ⟨m', fl', head, hrun, hhole, hkeep, htag⟩ := h.absorbRight hused
      have hal := hwf.aligned
      refine ⟨m', head, ys, y.fin, fl', ?_, hhole, by omega, by omega, ?_, ?_, ?_⟩
      · rw [if_neg (by simp), bind_some hrun,
          bind_some (blkSize_eq htag hwf (by change _ ≤ s.committed; omega))]
        have hsum : u32 (y.start - lo + y.size) = y.fin - lo := by
          rw [u32_of_lt (by omega)]
          omega
        rw [hsum]
        rfl
      · rw [usedOf_cons_free hused]
      · intro z hz
        simpa [hused] using (List.isChain_cons.mp hmerged).1 z hz
      · intro c hc
        rw [usedOf_append, usedOf_cons_free hused, ← usedOf_append] at hc
        exact hkeep c hc

/-- The second merge of `free`: afterwards the block to the left of the hole is in use. -/
theorem mergePrev_spec (h : Hole s xs ys lo hi fl) (hlt : lo < hi) :
    ∃ m' head xs' lo' fl', mergePrev lo (hi - lo) s =
        some ((lo', hi - lo'), { s with mem := m', freeList := head }) ∧
      Hole { s with mem := m', freeList := head } xs' ys lo' hi fl' ∧ lo' ≤ lo ∧
      (hi - lo') % 8 = (hi - lo) % 8 ∧ usedOf xs' = usedOf xs ∧
      (∀ x ∈ xs'.getLast?, x.used = true) ∧ KeepsUsed s.mem m' (xs ++ ys) := by
  have hbrk := h.hi_le
  have hblt := h.ok.brk_lt
  have hcom := h.ok.brk_le
  unfold mergePrev
  rw [bind_some (show (get : HeapM HeapState) s = some (s, s) from rfl)]
  -- the hole is at the start of the heap, or a block ends there
  rcases List.eq_nil_or_concat xs with rfl | ⟨xs, x, rfl⟩
  · obtain rfl : s.heapStart = lo := h.left.tiles
    rw [if_neg (Nat.lt_irrefl _)]
    exact ⟨s.mem, s.freeList, [], s.heapStart, fl, rfl, h, le_refl _, rfl, rfl, by simp,
      fun c _ => SameOn.refl _ _ _⟩
  · rw [List.concat_eq_append] at *
    obtain ⟨mid, hxs, rfl, hlo⟩ := tiles_append.mp h.left.tiles
    obtain rfl : x.fin = lo := hlo
    have hwf := h.left.wf x (by simp)
    have hroom := hwf.room
    have hal := hwf.aligned
    have hfin : x.fin = x.start + x.size := rfl
    have hge := hxs.le
    have hfoot : sub32 x.fin ftr = x.fin - 8 := sub32_of_le (by unfold ftr; omega) (by omega)
    have htag := (h.tagged x (by simp)).2
    rw [if_pos (by omega), hfoot, bind_some (load32_eq (by omega)), htag]
    have hused := tagWord_used x.used hal
    cases hu : x.used with
    | true =>
      rw [hu, decide_eq_true_eq] at hused
      rw [if_pos hused]
      exact ⟨s.mem, s.freeList, xs ++ [x], x.fin, fl, rfl, h, le_refl _, rfl, rfl, by simp [hu],
        fun c _ => SameOn.refl _ _ _⟩
    | false =>
      rw [hu, decide_eq_false_iff_not] at hused
      obtain ⟨m', fl', head, hrun, hhole, hkeep, -⟩ := h.absorbLeft hu
      -- the footer leads to the header of the block before
      have hprev : sub32 x.fin (tagWord x.size false / 8 * 8) = x.start := by
        rw [tagWord_size _ hal, sub32_of_le (by omega) (by omega)]
        omega
      refine ⟨m', head, xs, x.start, fl', ?_, hhole, by omega, by omega, ?_, ?_, ?_⟩
      · rw [if_neg hused, hprev, bind_some hrun, tagWord_size _ hal]
        have hsum : u32 (hi - x.fin + x.size) = hi - x.start := by
          rw [u32_of_lt (by omega)]
          omega
        rw [hsum]
        rfl
      · rw [usedOf_append, usedOf_cons_free hu]
        exact (List.append_nil _).symm
      · intro z hz
        have hchain := (List.isChain_append.mp h.left.merged).2.2 z hz x rfl
        simpa [hu] using hchain
      · intro c hc
        refine hkeep c ?_
        simp only [mem_usedOf, List.mem_append, List.mem_singleton] at hc ⊢
        rcases hc with ⟨(hc | rfl) | hc, hcu⟩
        · exact ⟨.inl hc, hcu⟩
        · rw [hu] at hcu
          cases hcu
        · exact ⟨.inr hc, hcu⟩

/-- `free` takes a block out of those in use, and touches no other. -/
theorem free_spec (h : HeapWf s (xs ++ b :: ys) fl) (hused : b.used = true) :
    ∃ m' head bs' fl', free (b.start + 8) s = some ((), { s with mem := m', freeList := head }) ∧
      HeapWf { s with mem := m', freeList := head } bs' fl' ∧ usedOf bs' = usedOf (xs ++ ys) ∧
      KeepsUsed s.mem m' (xs ++ ys) := by
  have hwf := h.layout.wf b (by simp)
  have hroom := hwf.room
  have hal := hwf.aligned
  have hfin : b.fin = b.start + b.size := rfl
  have hhole := h.forget hused
  have hbrk := hhole.hi_le
  have hblt := h.ok.brk_lt
  have hcom := h.ok.brk_le
  have hb : sub32 (b.start + 8) hdr = b.start := by
    rw [sub32_of_le (by unfold hdr; omega) (by omega)]
    exact Nat.add_sub_cancel b.start 8
  obtain ⟨m₁, head₁, ys', hi', fl₁, hrun₁, hhole₁, hle₁, hmod₁, hys', hr, hkeep₁⟩ :=
    mergeNext_spec hhole (by omega) hhole.right.merged
  obtain ⟨m₂, head₂, xs', lo', fl₂, hrun₂, hhole₂, hle₂, hmod₂, hxs', hl, hkeep₂⟩ :=
    mergePrev_spec hhole₁ (by omega)
  have hwf' : Block.Wf ⟨lo', hi' - lo', false⟩ := by
    constructor <;> dsimp only <;> omega
  obtain ⟨m₃, head₃, hrun₃, hwf₃, hkeep₃⟩ := hhole₂.release hwf' hl hr
  have husedOf₁ : usedOf (xs ++ ys') = usedOf (xs ++ ys) := by
    rw [usedOf_append, usedOf_append, hys']
  have husedOf : usedOf (xs' ++ ys') = usedOf (xs ++ ys) := by
    rw [usedOf_append, hxs', ← usedOf_append, husedOf₁]
  refine ⟨m₃, head₃, _, _, ?_, hwf₃, ?_, ?_⟩
  · have hsize : b.size = b.fin - b.start := by omega
    unfold free
    rw [if_neg (by omega), hb, bind_some (blkSize_eq (h.tagged b (by simp)) hwf (by omega)), hsize,
      bind_some hrun₁, bind_some hrun₂]
    exact hrun₃
  · rw [usedOf_append, usedOf_cons_free rfl, ← usedOf_append, husedOf]
  · refine (hkeep₁.trans (hkeep₂.mono fun c hc => ?_)).trans (hkeep₃.mono fun c hc => ?_)
    · rw [husedOf₁]
      exact hc
    · rw [husedOf]
      exact hc

end Lua2wasm.Heap
