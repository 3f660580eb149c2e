import Lua2wasm.Heap.FreeList

/-!
# The heap with a hole

`HeapWf` is the invariant between calls. Inside a call the allocator works on one region of the
heap that it has taken out of the books: the block it will hand out, or the one it merges. `Hole` is
the invariant there: the blocks on the two sides of the region are in order, and nothing is said
about the region's bytes. A hole opens by unlinking a free block (`Hole.absorbRight`,
`Hole.absorbLeft`), by forgetting a block in use (`HeapWf.forget`) or by moving the break; it closes
by handing out its front (`Hole.take`) and by turning what is left into a free block
(`Hole.release`).
-/

namespace Lua2wasm.Heap

open ByteMem Fallible

/-- The allocator's variables. -/
structure HeapState.Ok (s : HeapState) : Prop where
  /-- The first call has set them up. -/
  inited : s.inited = true
  /-- The heap begins at a multiple of 8, -/
  aligned : s.heapStart % 8 = 0
  /-- and not at the null pointer. -/
  pos : 0 < s.heapStart
  /-- The break is an address, -/
  brk_lt : s.brk < 2^32
  /-- in committed memory. -/
  brk_le : s.brk ≤ s.committed
  /-- There is some memory, -/
  pages_pos : 0 < s.pages
  /-- and at most all of it. -/
  pages_le : s.pages ≤ 2^16
  /-- `g_end` is its end, as a pointer. -/
  endPtr : s.endPtr = u32 s.committed

/-- The heap between calls: its blocks `bs`, and its free list `fl`. -/
structure HeapWf (s : HeapState) (bs : List Block) (fl : List ℕ) : Prop where
  ok : s.Ok
  /-- The blocks tile the heap, and no two adjacent ones are free. -/
  layout : Layout s.heapStart bs s.brk
  /-- Header and footer of each block say what it is. -/
  tagged : ∀ b ∈ bs, Tagged s.mem b
  /-- The free list is linked, -/
  free : FreeListOf s fl
  /-- and has exactly the free blocks. -/
  exact : fl.Perm (freeStarts bs)

/-- The heap with a region from `lo` to `hi` taken out, between the blocks `xs` and `ys`. -/
structure Hole (s : HeapState) (xs ys : List Block) (lo hi : ℕ) (fl : List ℕ) : Prop where
  ok : s.Ok
  left : Layout s.heapStart xs lo
  right : Layout hi ys s.brk
  le : lo ≤ hi
  tagged : ∀ b ∈ xs ++ ys, Tagged s.mem b
  free : FreeListOf s fl
  exact : fl.Perm (freeStarts (xs ++ ys))

/-- The bytes of the blocks in use are kept. -/
def KeepsUsed (m m' : Mem) (bs : List Block) : Prop :=
  ∀ c ∈ usedOf bs, SameOn m m' c.start c.fin

variable {s : HeapState} {xs ys bs : List Block} {lo hi : ℕ} {fl : List ℕ} {b c : Block} {m m' m'' : Mem}

theorem KeepsUsed.trans (h : KeepsUsed m m' bs) (h' : KeepsUsed m' m'' bs) : KeepsUsed m m'' bs :=
  fun c hc => (h c hc).trans (h' c hc)

theorem KeepsUsed.mono {bs' : List Block} (h : KeepsUsed m m' bs) (hs : ∀ c ∈ usedOf bs', c ∈ usedOf bs) :
    KeepsUsed m m' bs' :=
  fun c hc => h c (hs c hc)

theorem HeapState.Ok.committed_le (h : s.Ok) : s.committed ≤ 2^32 := by
  have := h.pages_le
  unfold HeapState.committed page
  omega

/-! ## Where blocks lie -/

/-- Different blocks of an ordered list do not overlap. -/
theorem apart_of_pairwise (h : bs.Pairwise fun b b' => b.fin ≤ b'.start) (hb : b ∈ bs) (hc : c ∈ bs)
    (hne : b ≠ c) : b.fin ≤ c.start ∨ c.fin ≤ b.start := by
  induction bs with
  | nil => cases hb
  | cons d bs ih =>
    obtain ⟨hd, h⟩ := List.pairwise_cons.mp h
    rcases List.mem_cons.mp hb with rfl | hb' <;> rcases List.mem_cons.mp hc with rfl | hc'
    · exact absurd rfl hne
    · exact .inl (hd c hc')
    · exact .inr (hd b hb')
    · exact ih h hb' hc'

/-- The links of a free block are apart from the tags of every block, and from all of a block in
use. -/
theorem links_apart {y : ℕ} (h : bs.Pairwise fun b b' => b.fin ≤ b'.start) (hwf : ∀ b ∈ bs, b.Wf)
    (hy : y ∈ freeStarts bs) (hc : c ∈ bs) :
    (c.start + 8 ≤ y + 8 ∨ y + 16 ≤ c.start) ∧ (c.fin ≤ y + 8 ∨ y + 16 ≤ c.fin - 8) ∧
      (c.used = true → c.fin ≤ y + 8 ∨ y + 16 ≤ c.start) := by
  obtain ⟨d, hd, hfree, rfl⟩ := mem_freeStarts.mp hy
  have hd32 := (hwf d hd).room
  have hcfin : c.fin = c.start + c.size := rfl
  have hdfin : d.fin = d.start + d.size := rfl
  by_cases hne : c = d
  · subst hne
    refine ⟨by omega, by omega, fun hused => ?_⟩
    rw [hused] at hfree
    cases hfree
  · have := apart_of_pairwise h hc hd hne
    omega

namespace Hole

/-- The blocks on the two sides, in order. -/
theorem pairwise (h : Hole s xs ys lo hi fl) :
    (xs ++ ys).Pairwise fun b b' => b.fin ≤ b'.start := by
  refine List.pairwise_append.mpr ⟨h.left.tiles.pairwise, h.right.tiles.pairwise, ?_⟩
  intro b hb c hc
  exact ((h.left.tiles.mem hb).2.trans h.le).trans (h.right.tiles.mem hc).1

theorem wf (h : Hole s xs ys lo hi fl) : ∀ b ∈ xs ++ ys, b.Wf := by
  intro b hb
  rcases List.mem_append.mp hb with hb | hb
  · exact h.left.wf b hb
  · exact h.right.wf b hb

/-- The blocks lie outside the hole. -/
theorem outside (h : Hole s xs ys lo hi fl) (hc : c ∈ xs ++ ys) : c.fin ≤ lo ∨ hi ≤ c.start := by
  rcases List.mem_append.mp hc with hc | hc
  · exact .inl (h.left.tiles.mem hc).2
  · exact .inr (h.right.tiles.mem hc).1

theorem hi_le (h : Hole s xs ys lo hi fl) : hi ≤ s.brk := h.right.tiles.le

/-- A change of memory that leaves the tags of the blocks and the links of the free list alone. -/
theorem congr (h : Hole s xs ys lo hi fl) {fl' : List ℕ} (head : ℕ)
    (hfree : FreeListOf { s with mem := m', freeList := head } fl')
    (hperm : fl'.Perm (freeStarts (xs ++ ys)))
    (htags : ∀ b ∈ xs ++ ys, SameOn s.mem m' b.start (b.start + 8) ∧ SameOn s.mem m' (b.fin - 8) b.fin) :
    Hole { s with mem := m', freeList := head } xs ys lo hi fl' where
  ok := ⟨h.ok.inited, h.ok.aligned, h.ok.pos, h.ok.brk_lt, h.ok.brk_le, h.ok.pages_pos,
    h.ok.pages_le, h.ok.endPtr⟩
  left := h.left
  right := h.right
  le := h.le
  tagged b hb := (h.tagged b hb).congr (h.wf b hb) (htags b hb).1 (htags b hb).2
  free := hfree
  exact := hperm

/-- A change of memory inside the hole. -/
theorem write (h : Hole s xs ys lo hi fl) (m' : Mem)
    (hsame : ∀ a b, b ≤ lo ∨ hi ≤ a → SameOn s.mem m' a b) :
    Hole { s with mem := m' } xs ys lo hi fl ∧ KeepsUsed s.mem m' (xs ++ ys) := by
  have hout : ∀ c ∈ xs ++ ys, SameOn s.mem m' c.start c.fin := by
    intro c hc
    have := h.outside hc
    exact hsame _ _ (by omega)
  refine ⟨h.congr s.freeList ⟨h.free.head, ?_, h.free.spaced, h.free.inside⟩ h.exact ?_,
    fun c hc => hout c (mem_usedOf.mp hc).1⟩
  · refine h.free.linked.congr fun x hx => ?_
    obtain ⟨d, hd, -, rfl⟩ := mem_freeStarts.mp (h.exact.subset hx)
    have hroom := (h.wf d hd).room
    exact (hout d hd).mono (by omega) (by unfold Block.fin; omega)
  · intro c hc
    have hroom := (h.wf c hc).room
    have hfin : c.fin = c.start + c.size := rfl
    exact ⟨(hout c hc).mono (le_refl _) (by omega), (hout c hc).mono (by omega) (le_refl _)⟩

/-- Unlinking a free block on one of the two sides: what is left is in order. -/
theorem unlink (h : Hole s xs ys lo hi fl) (hb : b ∈ xs ++ ys) (hfree : b.used = false) :
    ∃ m' fl' head, flRemove b.start s = some ((), { s with mem := m', freeList := head }) ∧
      FreeListOf { s with mem := m', freeList := head } fl' ∧ fl.Perm (b.start :: fl') ∧
      KeepsUsed s.mem m' (xs ++ ys) ∧ ∀ c ∈ xs ++ ys,
        SameOn s.mem m' c.start (c.start + 8) ∧ SameOn s.mem m' (c.fin - 8) c.fin := by
  have hmem : b.start ∈ fl := h.exact.symm.subset (mem_freeStarts.mpr ⟨b, hb, hfree, rfl⟩)
  obtain ⟨l₁, l₂, rfl⟩ := List.append_of_mem hmem
  obtain ⟨m', hrun, hfl, hsame⟩ := flRemove_spec h.free h.ok.committed_le
  have hlinks : ∀ c ∈ xs ++ ys, ∀ y ∈ l₁ ++ l₂, _ := fun c hc y hy =>
    links_apart h.pairwise h.wf
      (h.exact.subset ((List.sublist_cons_self _ _ |>.append_left l₁).subset hy)) hc
  refine ⟨m', l₁ ++ l₂, _, hrun, hfl, List.perm_middle, fun c hc => ?_, fun c hc => ⟨?_, ?_⟩⟩
  · obtain ⟨hc, hused⟩ := mem_usedOf.mp hc
    exact hsame _ _ fun y hy => (hlinks c hc y hy).2.2 hused
  · exact hsame _ _ fun y hy => (hlinks c hc y hy).1
  · exact hsame _ _ fun y hy => (hlinks c hc y hy).2.1

/-- A free block beside the hole is taken out, and the hole grows over it. -/
theorem absorb {xs' ys' : List Block} {lo' hi' : ℕ} (h : Hole s xs ys lo hi fl) (hall : xs ++ ys = xs' ++ b :: ys')
    (hfree : b.used = false) (hleft : Layout s.heapStart xs' lo') (hright : Layout hi' ys' s.brk) (hle : lo' ≤ hi') :
    ∃ m' fl' head, flRemove b.start s = some ((), { s with mem := m', freeList := head }) ∧
      Hole { s with mem := m', freeList := head } xs' ys' lo' hi' fl' ∧
      KeepsUsed s.mem m' (xs' ++ ys') ∧ Tagged m' b := by
  have hb : b ∈ xs ++ ys := by simp [hall]
  have hsub : (xs' ++ ys').Sublist (xs ++ ys) := by
    rw [hall]
    exact (List.sublist_cons_self b ys').append_left xs'
  obtain ⟨m', fl', head, hrun, hfl, hperm, hkeep, htags⟩ := h.unlink hb hfree
  refine ⟨m', fl', head, hrun, ⟨⟨h.ok.inited, h.ok.aligned, h.ok.pos, h.ok.brk_lt, h.ok.brk_le,
    h.ok.pages_pos, h.ok.pages_le, h.ok.endPtr⟩, hleft, hright, hle, ?_, hfl, ?_⟩, hkeep.mono ?_, ?_⟩
  · intro c hc
    have hc := hsub.subset hc
    exact (h.tagged c hc).congr (h.wf c hc) (htags c hc).1 (htags c hc).2
  · have hexact := hperm.symm.trans h.exact
    rw [hall, freeStarts_append, freeStarts_cons_free hfree] at hexact
    rw [freeStarts_append]
    exact (hexact.trans List.perm_middle).cons_inv
  · intro c hc
    simp only [mem_usedOf] at hc ⊢
    exact ⟨hsub.subset hc.1, hc.2⟩
  · exact (h.tagged b hb).congr (h.wf b hb) (htags b hb).1 (htags b hb).2

/-- A free block to the right of the hole becomes part of it. -/
theorem absorbRight (h : Hole s xs (b :: ys) lo hi fl) (hfree : b.used = false) :
    ∃ m' fl' head, flRemove b.start s = some ((), { s with mem := m', freeList := head }) ∧
      Hole { s with mem := m', freeList := head } xs ys lo b.fin fl' ∧
      KeepsUsed s.mem m' (xs ++ ys) ∧ Tagged m' b := by
  obtain ⟨hb, htiles⟩ := h.right.tiles
  have hle := h.le
  have hright : Layout b.fin ys s.brk :=
    ⟨htiles, fun c hc => h.right.wf c (List.mem_cons_of_mem _ hc), h.right.merged.tail⟩
  exact h.absorb rfl hfree h.left hright (by unfold Block.fin; omega)

/-- A free block to the left of the hole becomes part of it. -/
theorem absorbLeft (h : Hole s (xs ++ [b]) ys lo hi fl) (hfree : b.used = false) :
    ∃ m' fl' head, flRemove b.start s = some ((), { s with mem := m', freeList := head }) ∧
      Hole { s with mem := m', freeList := head } xs ys b.start hi fl' ∧
      KeepsUsed s.mem m' (xs ++ ys) ∧ Tagged m' b := by
  obtain ⟨mid, hxs, rfl, hlo⟩ := tiles_append.mp h.left.tiles
  have hle := h.le
  have hfin : b.fin = lo := hlo
  have hleft : Layout s.heapStart xs b.start :=
    ⟨hxs, fun c hc => h.left.wf c (List.mem_append_left _ hc), (List.isChain_append.mp h.left.merged).1⟩
  exact h.absorb (by simp) hfree hleft h.right (by unfold Block.fin at hfin; omega)

/-- The front of the hole is handed out. -/
theorem take (h : Hole s xs ys lo hi fl) {size : ℕ} (hsize : Block.Wf ⟨lo, size, true⟩)
    (hle : lo + size ≤ hi) : ∃ m', blkSet lo size true s = some ((), { s with mem := m' }) ∧
      Hole { s with mem := m' } (xs ++ [⟨lo, size, true⟩]) ys (lo + size) hi fl ∧
      KeepsUsed s.mem m' (xs ++ ys) := by
  have hbrk := h.hi_le
  have hlt := h.ok.brk_lt
  have hcom := h.ok.brk_le
  obtain ⟨m', hrun, htag, hsame⟩ := blkSet_spec ⟨lo, size, true⟩ hsize
    (by unfold Block.fin; dsimp only; omega) (by unfold Block.fin; dsimp only; omega) (s := s)
  obtain ⟨hhole, hkeep⟩ := h.write m' fun a b hab =>
    hsame a b (by unfold Block.fin; dsimp only; omega)
  refine ⟨m', hrun, ⟨hhole.ok, ⟨?_, ?_, ?_⟩, hhole.right, hle, ?_, hhole.free, ?_⟩, hkeep⟩
  · exact tiles_append.mpr ⟨lo, hhole.left.tiles, rfl, rfl⟩
  · intro c hc
    rcases List.mem_append.mp hc with hc | hc
    · exact hhole.left.wf c hc
    · obtain rfl := List.mem_singleton.mp hc
      exact hsize
  · refine List.isChain_append.mpr ⟨hhole.left.merged, .singleton _, ?_⟩
    rintro x - y hy
    obtain rfl : _ = y := by simpa using hy
    exact .inr rfl
  · intro c hc
    rw [List.append_assoc, List.singleton_append] at hc
    rcases List.mem_append.mp hc with hc | hc
    · exact hhole.tagged c (List.mem_append_left _ hc)
    · rcases List.mem_cons.mp hc with rfl | hc
      · exact htag
      · exact hhole.tagged c (List.mem_append_right _ hc)
  · rw [List.append_assoc, List.singleton_append, freeStarts_append, freeStarts_cons_used rfl,
      ← freeStarts_append]
    exact hhole.exact

/-- A hole without bytes is none. -/
theorem close (h : Hole s xs ys lo lo fl)
    (hmerged : ∀ x ∈ xs.getLast?, ∀ y ∈ ys.head?, x.used = true ∨ y.used = true) :
    HeapWf s (xs ++ ys) fl where
  ok := h.ok
  layout := ⟨tiles_append.mpr ⟨lo, h.left.tiles, h.right.tiles⟩, h.wf,
    List.isChain_append.mpr ⟨h.left.merged, h.right.merged, hmerged⟩⟩
  tagged := h.tagged
  free := h.free
  exact := h.exact

/-- The hole becomes a free block, where its neighbours are in use. -/
theorem release (h : Hole s xs ys lo hi fl) (hwf : Block.Wf ⟨lo, hi - lo, false⟩)
    (hl : ∀ x ∈ xs.getLast?, x.used = true) (hr : ∀ y ∈ ys.head?, y.used = true) :
    ∃ m' head, (do blkSet lo (hi - lo) false; flInsert lo : HeapM PUnit) s =
        some ((), { s with mem := m', freeList := head }) ∧
      HeapWf { s with mem := m', freeList := head } (xs ++ ⟨lo, hi - lo, false⟩ :: ys) (lo :: fl) ∧
      KeepsUsed s.mem m' (xs ++ ys) := by
  have hroom : 32 ≤ hi - lo := hwf.room
  have hbrk := h.hi_le
  have hlt := h.ok.brk_lt
  have hcom := h.ok.brk_le
  obtain ⟨m₁, hrun, htag, hsame⟩ := blkSet_spec ⟨lo, hi - lo, false⟩ hwf
    (by unfold Block.fin; dsimp only; omega) (by unfold Block.fin; dsimp only; omega) (s := s)
  obtain ⟨hhole, hkeep⟩ := h.write m₁ fun a b hab =>
    hsame a b (by unfold Block.fin; dsimp only; omega)
  -- The links of the new free block are inside the hole, those of the others outside.
  have hsp : ∀ y ∈ fl, lo + 16 ≤ y ∨ y + 16 ≤ lo := by
    intro y hy
    obtain ⟨d, hd, -, rfl⟩ := mem_freeStarts.mp (h.exact.subset hy)
    have := h.outside hd
    have := (h.wf d hd).room
    have : d.fin = d.start + d.size := rfl
    omega
  obtain ⟨m₂, hrun₂, hfl, hsame₂⟩ := flInsert_spec hhole.free hsp
    (show lo + 16 ≤ s.committed by omega) hhole.ok.committed_le
  have hlinks : ∀ c ∈ xs ++ ys, ∀ y ∈ lo :: fl, (c.start + 8 ≤ y + 8 ∨ y + 16 ≤ c.start) ∧
      (c.fin ≤ y + 8 ∨ y + 16 ≤ c.fin - 8) ∧ (c.used = true → c.fin ≤ y + 8 ∨ y + 16 ≤ c.start) := by
    intro c hc y hy
    rcases List.mem_cons.mp hy with rfl | hy
    · have := h.outside hc
      have := (h.wf c hc).room
      have : c.fin = c.start + c.size := rfl
      omega
    · exact links_apart h.pairwise h.wf (h.exact.subset hy) hc
  refine ⟨m₂, lo + 8, ?_, ⟨⟨h.ok.inited, h.ok.aligned, h.ok.pos, h.ok.brk_lt, h.ok.brk_le,
    h.ok.pages_pos, h.ok.pages_le, h.ok.endPtr⟩, ⟨?_, ?_, ?_⟩, ?_, hfl, ?_⟩, hkeep.trans fun c hc => ?_⟩
  · rw [bind_some hrun]
    exact hrun₂
  · refine tiles_append.mpr ⟨lo, h.left.tiles, rfl, ?_⟩
    have : (⟨lo, hi - lo, false⟩ : Block).fin = hi := by
      unfold Block.fin
      dsimp only
      omega
    rw [this]
    exact h.right.tiles
  · intro c hc
    rcases List.mem_append.mp hc with hc | hc
    · exact h.left.wf c hc
    · rcases List.mem_cons.mp hc with rfl | hc
      · exact hwf
      · exact h.right.wf c hc
  · refine List.isChain_append.mpr ⟨h.left.merged, ?_, ?_⟩
    · refine List.isChain_cons.mpr ⟨fun y hy => .inr (hr y hy), h.right.merged⟩
    · intro x hx y hy
      exact .inl (hl x hx)
  · intro c hc
    rcases List.mem_append.mp hc with hc' | hc'
    · have hc := List.mem_append_left ys hc'
      exact (hhole.tagged c hc).congr (h.wf c hc) (hsame₂ _ _ fun y hy => (hlinks c hc y hy).1)
        (hsame₂ _ _ fun y hy => (hlinks c hc y hy).2.1)
    · rcases List.mem_cons.mp hc' with rfl | hc'
      · refine htag.congr hwf (hsame₂ _ _ fun y hy => ?_) (hsame₂ _ _ fun y hy => ?_)
        · rcases List.mem_cons.mp hy with rfl | hy
          · exact .inl (le_refl _)
          · have := hsp y hy
            dsimp only
            omega
        · unfold Block.fin
          dsimp only
          rcases List.mem_cons.mp hy with rfl | hy
          · omega
          · obtain ⟨d, hd, -, rfl⟩ := mem_freeStarts.mp (h.exact.subset hy)
            have := h.outside hd
            have := (h.wf d hd).room
            have : d.fin = d.start + d.size := rfl
            omega
      · have hc := List.mem_append_right xs hc'
        exact (hhole.tagged c hc).congr (h.wf c hc) (hsame₂ _ _ fun y hy => (hlinks c hc y hy).1)
          (hsame₂ _ _ fun y hy => (hlinks c hc y hy).2.1)
  · rw [freeStarts_append, freeStarts_cons_free rfl]
    have := h.exact
    rw [freeStarts_append] at this
    exact (this.cons lo).trans List.perm_middle.symm
  · obtain ⟨hc, hused⟩ := mem_usedOf.mp hc
    exact hsame₂ _ _ fun y hy => (hlinks c hc y hy).2.2 hused

end Hole

/-- A block in use can be taken out of the books. -/
theorem HeapWf.forget (h : HeapWf s (xs ++ b :: ys) fl) (hused : b.used = true) :
    Hole s xs ys b.start b.fin fl := by
  obtain ⟨mid, hxs, rfl, hys⟩ := tiles_append.mp h.layout.tiles
  have hchain := List.isChain_append.mp h.layout.merged
  have hsub : (xs ++ ys).Sublist (xs ++ b :: ys) := (List.sublist_cons_self b ys).append_left xs
  refine ⟨h.ok, ⟨hxs, fun c hc => h.layout.wf c (List.mem_append_left _ hc), hchain.1⟩,
    ⟨hys, fun c hc => h.layout.wf c (by simp [hc]), hchain.2.1.tail⟩, Nat.le_add_right _ _,
    fun c hc => h.tagged c (hsub.subset hc), h.free, ?_⟩
  have := h.exact
  rw [freeStarts_append, freeStarts_cons_used hused, ← freeStarts_append] at this
  exact this

/-- A heap is one with an empty hole anywhere between two blocks. -/
theorem HeapWf.split (h : HeapWf s (xs ++ ys) fl) : ∃ mid, Hole s xs ys mid mid fl := by
  obtain ⟨mid, hxs, hys⟩ := tiles_append.mp h.layout.tiles
  have hchain := List.isChain_append.mp h.layout.merged
  exact ⟨mid, h.ok, ⟨hxs, fun c hc => h.layout.wf c (List.mem_append_left _ hc), hchain.1⟩,
    ⟨hys, fun c hc => h.layout.wf c (List.mem_append_right _ hc), hchain.2.1⟩, le_refl _, h.tagged,
    h.free, h.exact⟩

end Lua2wasm.Heap
