import Lua2wasm.Heap.Blocks
import Lua2wasm.Lib.Fallible

/-!
# Tags and the free list

The two structures that the allocator keeps in memory. `Tagged` says that a block has its size in
its header and in its footer, and `Linked` that a list of blocks is doubly linked. Both are about
the bytes of their own blocks only, so writes to other blocks leave them alone. The operations on
the free list (`flRemove_spec`, `flInsert_spec`) change nothing but the links of the blocks in it.
-/

namespace Lua2wasm.Heap

open ByteMem Fallible

/-! ## Tags -/

/-- The header and the footer of a block say its size and whether it is in use. -/
def Tagged (m : Mem) (b : Block) : Prop :=
  read32 m b.start = tagWord b.size b.used ∧ read32 m (b.fin - 8) = tagWord b.size b.used

variable {m m' : Mem} {b : Block} {s : HeapState}

theorem tagWord_lt {size : ℕ} {used : Bool} (h : size < 2^32) : tagWord size used < 2^32 := by
  unfold tagWord
  split_ifs <;> omega

theorem tagWord_size {size : ℕ} (used : Bool) (h : size % 8 = 0) :
    tagWord size used / 8 * 8 = size := by
  unfold tagWord
  split_ifs <;> omega

theorem tagWord_used {size : ℕ} (used : Bool) (h : size % 8 = 0) :
    decide (tagWord size used % 2 = 1) = used := by
  unfold tagWord
  cases used
  · simp
    omega
  · simp

/-- A block's tags are among its first and its last 8 bytes. -/
theorem Tagged.congr (h : Tagged m b) (hwf : b.Wf) (h₁ : SameOn m m' b.start (b.start + 8))
    (h₂ : SameOn m m' (b.fin - 8) b.fin) : Tagged m' b := by
  have hroom := hwf.room
  have hfin : b.fin = b.start + b.size := rfl
  unfold Tagged at h ⊢
  rw [h₁.read32 (le_refl _) (by omega), h₂.read32 (le_refl _) (by omega)]
  exact h

/-- The tags determine the blocks of a heap. -/
theorem blocks_unique {lo hi : ℕ} {bs bs' : List Block} (h : Tiles lo bs hi) (h' : Tiles lo bs' hi)
    (hwf : ∀ b ∈ bs, b.Wf) (hwf' : ∀ b ∈ bs', b.Wf) (ht : ∀ b ∈ bs, Tagged m b)
    (ht' : ∀ b ∈ bs', Tagged m b) : bs = bs' := by
  induction bs generalizing lo bs' with
  | nil =>
    cases bs' with
    | nil => rfl
    | cons c cs =>
      have hroom := (hwf' c List.mem_cons_self).room
      have hmem := h'.mem List.mem_cons_self
      have heq : lo = hi := h
      unfold Block.fin at hmem
      omega
  | cons b bs ih =>
    cases bs' with
    | nil =>
      have hroom := (hwf b List.mem_cons_self).room
      have hmem := h.mem List.mem_cons_self
      have heq : lo = hi := h'
      unfold Block.fin at hmem
      omega
    | cons c cs =>
      obtain ⟨hb, hbs⟩ := h
      obtain ⟨hc, hcs⟩ := h'
      have hbal := (hwf b List.mem_cons_self).aligned
      have hcal := (hwf' c List.mem_cons_self).aligned
      have htag : tagWord b.size b.used = tagWord c.size c.used := by
        rw [← (ht b List.mem_cons_self).1, ← (ht' c List.mem_cons_self).1, hb, hc]
      have hsize : b.size = c.size := by
        rw [← tagWord_size b.used hbal, ← tagWord_size c.used hcal, htag]
      have hused : b.used = c.used := by
        rw [← tagWord_used b.used hbal, ← tagWord_used c.used hcal, htag]
      obtain rfl : b = c := by
        obtain ⟨bstart, bsize, bused⟩ := b
        obtain ⟨cstart, csize, cused⟩ := c
        simp only at hb hc hsize hused
        rw [hb, hc, hsize, hused]
      rw [ih hbs hcs (fun d hd => hwf d (List.mem_cons_of_mem _ hd))
        (fun d hd => hwf' d (List.mem_cons_of_mem _ hd)) (fun d hd => ht d (List.mem_cons_of_mem _ hd))
        fun d hd => ht' d (List.mem_cons_of_mem _ hd)]

theorem load32_eq {a : ℕ} (h : a + 4 ≤ s.committed) : load32 a s = some (read32 s.mem a, s) :=
  if_pos h

theorem store32_eq {a : ℕ} (v : ℕ) (h : a + 4 ≤ s.committed) :
    store32 a v s = some ((), { s with mem := write32 s.mem a v }) :=
  if_pos h

theorem u32_of_lt {x : ℕ} (h : x < 2^32) : u32 x = x := Nat.mod_eq_of_lt h

theorem sub32_of_le {a b : ℕ} (h : b ≤ a) (ha : a < 2^32) : sub32 a b = a - b := by
  unfold sub32 u32
  omega

/-- `blk_size` reads the size of a tagged block. -/
theorem blkSize_eq (h : Tagged s.mem b) (hwf : b.Wf) (hin : b.start + 4 ≤ s.committed) :
    blkSize b.start s = some (b.size, s) := by
  unfold blkSize
  rw [bind_some (load32_eq hin), h.1, tagWord_size _ hwf.aligned]
  rfl

/-- `blk_used` reads whether a tagged block is in use. -/
theorem blkUsed_eq (h : Tagged s.mem b) (hwf : b.Wf) (hin : b.start + 4 ≤ s.committed) :
    blkUsed b.start s = some (b.used, s) := by
  unfold blkUsed
  rw [bind_some (load32_eq hin), h.1, tagWord_used _ hwf.aligned]
  rfl

/-- `blk_set` tags a block and changes nothing outside it. -/
theorem blkSet_spec (b : Block) (hwf : b.Wf) (hin : b.fin ≤ s.committed)
    (hlt : b.fin < 2^32) : ∃ m', blkSet b.start b.size b.used s = some ((), { s with mem := m' }) ∧
      Tagged m' b ∧ (∀ lo hi, hi ≤ b.start ∨ b.fin ≤ lo → SameOn s.mem m' lo hi) := by
  have hroom := hwf.room
  have hfin : b.fin = b.start + b.size := rfl
  have hfoot : sub32 (u32 (b.start + b.size)) ftr = b.fin - 8 := by
    rw [← hfin, u32_of_lt hlt, sub32_of_le (by unfold ftr; omega) hlt]
    rfl
  have hv : tagWord b.size b.used < 2^32 := tagWord_lt (by omega)
  refine ⟨write32 (write32 s.mem b.start (tagWord b.size b.used)) (b.fin - 8)
    (tagWord b.size b.used), ?_, ⟨?_, ?_⟩, ?_⟩
  · unfold blkSet
    rw [bind_some (store32_eq _ (by omega)), hfoot]
    exact store32_eq _ (by change _ ≤ s.committed; omega)
  · rw [read32_write32_of_apart _ _ (by omega), read32_write32 _ _ hv]
  · rw [read32_write32 _ _ hv]
  · intro lo hi h
    exact (sameOn_write32 _ _ (by omega)).trans (sameOn_write32 _ _ (by omega))

/-! ## Links -/

/-- The node of the first block of a list: the address of its payload, or 0. -/
def headNode : List ℕ → ℕ
  | [] => 0
  | x :: _ => x + 8

/-- The node of the last block of a list, or `prev` if there is none. -/
def lastNode (prev : ℕ) : List ℕ → ℕ
  | [] => prev
  | x :: xs => lastNode (x + 8) xs

/-- The free list from the block after node `prev`: every block has the links to its neighbours. -/
def Linked (m : Mem) : ℕ → List ℕ → Prop
  | _, [] => True
  | prev, x :: xs =>
    read32 m (x + 8 + 4) = prev ∧ read32 m (x + 8) = headNode xs ∧ Linked m (x + 8) xs

/-- The links of the blocks of a list take different bytes. -/
def Spaced (xs : List ℕ) : Prop := xs.Pairwise fun x y => x + 16 ≤ y ∨ y + 16 ≤ x

/-- Two memories agree outside the links of a list of blocks. -/
def SameButLinks (m m' : Mem) (xs : List ℕ) : Prop :=
  ∀ lo hi, (∀ x ∈ xs, hi ≤ x + 8 ∨ x + 16 ≤ lo) → SameOn m m' lo hi

theorem Linked.congr {prev : ℕ} {xs : List ℕ} (h : Linked m prev xs)
    (hs : ∀ x ∈ xs, SameOn m m' (x + 8) (x + 16)) : Linked m' prev xs := by
  induction xs generalizing prev with
  | nil => trivial
  | cons x xs ih =>
    obtain ⟨hprev, hnext, hxs⟩ := h
    have hx := hs x List.mem_cons_self
    refine ⟨?_, ?_, ih hxs fun y hy => hs y (List.mem_cons_of_mem _ hy)⟩
    · rw [hx.read32 (by omega) (by omega), hprev]
    · rw [hx.read32 (by omega) (by omega), hnext]

theorem headNode_append (xs ys : List ℕ) :
    headNode (xs ++ ys) = if xs = [] then headNode ys else headNode xs := by
  cases xs <;> simp [headNode]

/-- The links of a block in the middle of the list. -/
theorem Linked.middle {prev x : ℕ} {xs ys : List ℕ} (h : Linked m prev (xs ++ x :: ys)) :
    read32 m (x + 8 + 4) = lastNode prev xs ∧ read32 m (x + 8) = headNode ys := by
  induction xs generalizing prev with
  | nil => exact ⟨h.1, h.2.1⟩
  | cons y xs ih => exact ih h.2.2

/-- The last node is one of the list's. -/
theorem lastNode_cases (prev : ℕ) (xs : List ℕ) :
    (xs = [] ∧ lastNode prev xs = prev) ∨ ∃ x ∈ xs, lastNode prev xs = x + 8 := by
  induction xs generalizing prev with
  | nil => exact .inl ⟨rfl, rfl⟩
  | cons x xs ih =>
    right
    rcases ih (x + 8) with ⟨rfl, h⟩ | ⟨y, hy, h⟩
    · exact ⟨x, List.mem_cons_self, h⟩
    · exact ⟨y, List.mem_cons_of_mem _ hy, h⟩

theorem headNode_cases (xs : List ℕ) :
    (xs = [] ∧ headNode xs = 0) ∨ ∃ x ∈ xs, headNode xs = x + 8 := by
  cases xs with
  | nil => exact .inl ⟨rfl, rfl⟩
  | cons x xs => exact .inr ⟨x, List.mem_cons_self, rfl⟩

/-- The memory after the neighbours of an unlinked block are linked to each other. -/
def bridge (m : Mem) (prev next : ℕ) : Mem :=
  let m₁ := if prev ≠ 0 then write32 m prev next else m
  if next ≠ 0 then write32 m₁ (next + 4) prev else m₁

/-- Bridging changes a link of each neighbour only. -/
theorem bridge_same {prev next lo hi : ℕ} (hp : prev = 0 ∨ hi ≤ prev ∨ prev + 4 ≤ lo)
    (hn : next = 0 ∨ hi ≤ next + 4 ∨ next + 8 ≤ lo) : SameOn m (bridge m prev next) lo hi := by
  unfold bridge
  split_ifs
  · exact (sameOn_write32 _ _ (by omega)).trans (sameOn_write32 _ _ (by omega))
  · exact sameOn_write32 _ _ (by omega)
  · exact sameOn_write32 _ _ (by omega)
  · exact SameOn.refl _ _ _

/-- A word apart from these two links. -/
theorem read32_bridge {prev next a : ℕ} (hp : prev = 0 ∨ a + 4 ≤ prev ∨ prev + 4 ≤ a)
    (hn : next = 0 ∨ a ≤ next ∨ next + 8 ≤ a) :
    read32 (bridge m prev next) a = read32 m a :=
  (bridge_same hp (by omega)).read32 (le_refl a) (le_refl (a + 4))

/-- The `prev` link of the right neighbour after bridging. -/
theorem bridge_prev {prev next : ℕ} (hn : next ≠ 0) (hp : prev < 2^32) :
    read32 (bridge m prev next) (next + 4) = prev := by
  unfold bridge
  rw [if_pos hn, read32_write32 _ _ hp]

/-- The `next` link of the left neighbour after bridging. -/
theorem bridge_next {prev next : ℕ} (hp : prev ≠ 0) (hn : next < 2^32)
    (hapart : next = 0 ∨ prev + 8 ≤ next ∨ next + 8 ≤ prev) :
    read32 (bridge m prev next) prev = next := by
  unfold bridge
  rw [if_pos hp]
  split_ifs with h
  · rw [read32_write32_of_apart _ _ (by omega), read32_write32 _ _ hn]
  · exact read32_write32 _ _ hn

/-- A list without one of its blocks is linked after bridging. -/
theorem Linked.bridge {prev x : ℕ} {xs ys : List ℕ} (h : Linked m prev (xs ++ x :: ys))
    (hsp : Spaced (xs ++ x :: ys)) (hlt : ∀ y ∈ xs ++ x :: ys, y + 16 ≤ 2^32)
    (hprev : prev = 0 ∨ (prev < 2^32 ∧ ∀ y ∈ xs ++ x :: ys, y + 16 ≤ prev ∨ prev + 8 ≤ y + 8)) :
    Linked (Heap.bridge m (lastNode prev xs) (headNode ys)) prev (xs ++ ys) := by
  induction xs generalizing prev with
  | nil =>
    cases ys with
    | nil => trivial
    | cons y ys =>
      have hsp' := (List.pairwise_cons.mp hsp).2
      have hprev' : prev < 2^32 := by omega
      have hyp : prev = 0 ∨ y + 16 ≤ prev ∨ prev + 8 ≤ y + 8 :=
        hprev.imp_right fun h => h.2 y (by simp)
      obtain ⟨-, -, hxs⟩ := h
      refine ⟨?_, ?_, ?_⟩
      · exact bridge_prev (by simp [headNode]) hprev'
      · have hval : read32 m (y + 8) = headNode ys := hxs.2.1
        rw [← hval]
        have hl : lastNode prev [] = prev := rfl
        exact read32_bridge (by omega) (.inr (.inl (le_refl (y + 8))))
      · refine hxs.2.2.congr fun z hz => ?_
        have hzy := (List.pairwise_cons.mp hsp').1 z hz
        refine bridge_same ?_ (.inr ?_)
        · exact hprev.imp_right fun h => by
            have := h.2 z (by simp [hz])
            dsimp only [lastNode]
            omega
        · dsimp only [headNode]
          omega
  | cons y xs ih =>
    obtain ⟨hp, hn, hxs⟩ := h
    rw [List.cons_append] at hsp
    obtain ⟨hsp₁, hsp₂⟩ := List.pairwise_cons.mp hsp
    have hylt : y + 16 ≤ 2^32 := hlt y (by simp)
    have hin := ih hxs hsp₂ (fun z hz => hlt z (List.mem_cons_of_mem _ hz))
      (.inr ⟨by omega, fun z hz => by have := hsp₁ z hz; omega⟩)
    -- The head's own `prev` link is not touched; its `next` link is, if it is the left neighbour.
    have hnext : headNode ys = 0 ∨ y + 16 ≤ headNode ys ∨ headNode ys + 8 ≤ y + 8 := by
      rcases headNode_cases ys with ⟨-, h⟩ | ⟨z, hz, h⟩
      · exact .inl h
      · have := hsp₁ z (by simp [hz])
        omega
    have hlast : lastNode (y + 8) xs = y + 8 ∧ xs = [] ∨
        xs ≠ [] ∧ (lastNode (y + 8) xs + 8 ≤ y + 8 ∨ y + 16 ≤ lastNode (y + 8) xs) := by
      rcases lastNode_cases (y + 8) xs with ⟨h, h'⟩ | ⟨z, hz, h⟩
      · exact .inl ⟨h', h⟩
      · have := hsp₁ z (by simp [hz])
        exact .inr ⟨List.ne_nil_of_mem hz, by omega⟩
    have hheadlt : headNode ys < 2^32 := by
      rcases headNode_cases ys with ⟨-, h⟩ | ⟨z, hz, h⟩
      · omega
      · have := hlt z (by simp [hz])
        omega
    refine ⟨?_, ?_, hin⟩
    · rw [← hp]
      change read32 (Heap.bridge m (lastNode (y + 8) xs) (headNode ys)) (y + 8 + 4) = _
      exact read32_bridge (by omega) (by omega)
    · change read32 (Heap.bridge m (lastNode (y + 8) xs) (headNode ys)) (y + 8) = _
      rcases hlast with ⟨h, rfl⟩ | ⟨hne, h⟩
      · rw [h]
        exact bridge_next (by omega) hheadlt (by omega)
      · have hhead : headNode (xs ++ x :: ys) = headNode (xs ++ ys) := by
          rw [headNode_append, headNode_append, if_neg hne, if_neg hne]
        change _ = headNode (xs ++ ys)
        rw [← hhead]
        refine Eq.trans ?_ hn
        exact read32_bridge (by omega) (by omega)

/-! ## Operations -/

/-- The free list of a state: linked from `g_free` on, with all its links in memory. -/
structure FreeListOf (s : HeapState) (xs : List ℕ) : Prop where
  /-- `g_free` is its first node. -/
  head : s.freeList = headNode xs
  /-- Its blocks are linked. -/
  linked : Linked s.mem 0 xs
  /-- Their links take different bytes. -/
  spaced : Spaced xs
  /-- The links are in committed memory. -/
  inside : ∀ x ∈ xs, x + 16 ≤ s.committed

theorem modify_eq {f : HeapState → HeapState} : (modify f : HeapM PUnit) s = some (⟨⟩, f s) := rfl

/-- `fl_remove` takes a block out of the list. -/
theorem flRemove_spec {x : ℕ} {xs ys : List ℕ} (h : FreeListOf s (xs ++ x :: ys))
    (hlt : s.committed ≤ 2^32) : ∃ m', flRemove x s = some ((), { s with
      mem := m', freeList := headNode (xs ++ ys) }) ∧
    FreeListOf { s with mem := m', freeList := headNode (xs ++ ys) } (xs ++ ys) ∧
    SameButLinks s.mem m' (xs ++ ys) := by
  obtain ⟨hhead, hlinked, hspaced, hinside⟩ := h
  have hx : x + 16 ≤ s.committed := hinside x (by simp)
  obtain ⟨hprev, hnext⟩ := hlinked.middle
  have hpair := List.pairwise_append.mp hspaced
  -- The neighbours' links are in memory, and apart from those of `x`.
  have hp : lastNode 0 xs = 0 ∨ lastNode 0 xs + 8 ≤ s.committed ∧
      (lastNode 0 xs + 8 ≤ x + 8 ∨ x + 16 ≤ lastNode 0 xs) := by
    rcases lastNode_cases 0 xs with ⟨-, h⟩ | ⟨z, hz, h⟩
    · exact .inl h
    · have hz₁ := hinside z (by simp [hz])
      have hz₂ := hpair.2.2 z hz x List.mem_cons_self
      omega
  have hn : headNode ys = 0 ∨ headNode ys + 8 ≤ s.committed := by
    rcases headNode_cases ys with ⟨-, h⟩ | ⟨z, hz, h⟩
    · exact .inl h
    · have hz₁ := hinside z (by simp [hz])
      omega
  have hsublist : (xs ++ ys).Sublist (xs ++ x :: ys) :=
    (List.Sublist.refl xs).append (List.sublist_cons_self x ys)
  refine ⟨bridge s.mem (lastNode 0 xs) (headNode ys), ?_, ⟨rfl, ?_, ?_, ?_⟩, ?_⟩
  · have hn₁ : u32 (x + hdr) = x + 8 := u32_of_lt (by unfold hdr; omega)
    have hn₂ : u32 (x + 8 + 4) = x + 8 + 4 := u32_of_lt (by omega)
    unfold flRemove
    rw [hn₁, hn₂, bind_some (load32_eq (by omega)), hprev, bind_some (load32_eq (by omega)), hnext]
    -- The first write: the left neighbour's link, or `g_free`.
    have hfirst (k : PUnit → HeapM PUnit) :
        (if lastNode 0 xs ≠ 0 then store32 (lastNode 0 xs) (headNode ys) >>= k
          else (modify fun s => { s with freeList := headNode ys }) >>= k) s =
        k ⟨⟩ { s with
          mem := if lastNode 0 xs ≠ 0 then write32 s.mem (lastNode 0 xs) (headNode ys) else s.mem
          freeList := headNode (xs ++ ys) } := by
      rcases lastNode_cases 0 xs with ⟨rfl, h0⟩ | ⟨z, hz, h⟩
      · rw [if_neg (by omega), if_neg (by omega)]
        rfl
      · have hne := List.ne_nil_of_mem hz
        have hsame : headNode (xs ++ x :: ys) = headNode (xs ++ ys) := by
          rw [headNode_append, headNode_append, if_neg hne, if_neg hne]
        rw [if_pos (by omega), if_pos (by omega), bind_some (store32_eq _ (by omega)), ← hsame,
          ← hhead]
    rw [hfirst]
    dsimp only
    rw [bind_some (load32_eq (by change _ ≤ s.committed; omega))]
    have hsame : SameOn s.mem
        (if lastNode 0 xs ≠ 0 then write32 s.mem (lastNode 0 xs) (headNode ys) else s.mem)
        (x + 8) (x + 16) := by
      split_ifs with h0
      · exact sameOn_write32 _ _ (by omega)
      · exact SameOn.refl _ _ _
    rw [hsame.read32 (le_refl _) (by omega), hnext]
    unfold bridge
    by_cases h0 : headNode ys ≠ 0
    · rw [if_pos h0, if_pos h0, bind_some (load32_eq (by change _ ≤ s.committed; omega))]
      have hlt' : headNode ys + 4 < 2^32 := by omega
      rw [hsame.read32 (by omega) (by omega), hprev, u32_of_lt hlt']
      exact store32_eq _ (by change _ ≤ s.committed; omega)
    · rw [if_neg h0, if_neg h0]
      rfl
  · exact hlinked.bridge hspaced (fun y hy => (hinside y hy).trans hlt) (.inl rfl)
  · exact hspaced.sublist hsublist
  · exact fun y hy => hinside y (hsublist.subset hy)
  · intro lo hi h
    refine bridge_same ?_ ?_
    · rcases lastNode_cases 0 xs with ⟨-, h0⟩ | ⟨z, hz, h'⟩
      · exact .inl h0
      · have := h z (by simp [hz])
        omega
    · rcases headNode_cases ys with ⟨-, h0⟩ | ⟨z, hz, h'⟩
      · exact .inl h0
      · have := h z (by simp [hz])
        omega

/-- `fl_insert` puts a block at the front of the list. -/
theorem flInsert_spec {x : ℕ} {xs : List ℕ} (h : FreeListOf s xs)
    (hsp : ∀ y ∈ xs, x + 16 ≤ y ∨ y + 16 ≤ x) (hin : x + 16 ≤ s.committed)
    (hlt : s.committed ≤ 2^32) : ∃ m', flInsert x s = some ((), { s with
      mem := m', freeList := x + 8 }) ∧
    FreeListOf { s with mem := m', freeList := x + 8 } (x :: xs) ∧
    SameButLinks s.mem m' (x :: xs) := by
  obtain ⟨hhead, hlinked, hspaced, hinside⟩ := h
  have hn₁ : u32 (x + hdr) = x + 8 := u32_of_lt (by unfold hdr; omega)
  have hn₂ : u32 (x + 8 + 4) = x + 8 + 4 := u32_of_lt (by omega)
  -- the old head is no block, or lies apart from the new one
  have hhn : headNode xs = 0 ∨ headNode xs + 8 ≤ s.committed ∧
      (headNode xs + 8 ≤ x + 8 ∨ x + 16 ≤ headNode xs) := by
    rcases headNode_cases xs with ⟨-, h⟩ | ⟨z, hz, h⟩
    · exact .inl h
    · have hz₁ := hinside z hz
      have hz₂ := hsp z hz
      omega
  let m₁ := write32 (write32 s.mem (x + 8 + 4) 0) (x + 8) (headNode xs)
  let m' := if headNode xs ≠ 0 then write32 m₁ (headNode xs + 4) (x + 8) else m₁
  -- only the links of the new block and of the old head are written
  have hsame : ∀ lo hi, (hi ≤ x + 8 ∨ x + 16 ≤ lo) →
      (headNode xs = 0 ∨ hi ≤ headNode xs + 4 ∨ headNode xs + 8 ≤ lo) → SameOn s.mem m' lo hi := by
    intro lo hi h₁ h₂
    have hm₁ : SameOn s.mem m₁ lo hi :=
      (sameOn_write32 _ _ (by omega)).trans (sameOn_write32 _ _ (by omega))
    change SameOn s.mem (if headNode xs ≠ 0 then _ else _) lo hi
    split_ifs with h0
    · exact hm₁.trans (sameOn_write32 _ _ (by omega))
    · exact hm₁
  have hkeep : SameOn m₁ m' (x + 8) (x + 16) := by
    change SameOn m₁ (if headNode xs ≠ 0 then _ else _) _ _
    split_ifs with h0
    · exact sameOn_write32 _ _ (by omega)
    · exact SameOn.refl _ _ _
  refine ⟨m', ?_, ⟨rfl, ⟨?_, ?_, ?_⟩, ?_, ?_⟩, ?_⟩
  · unfold flInsert
    rw [hn₁, hn₂, bind_some (store32_eq _ (by omega)),
      bind_some (show (get : HeapM HeapState) _ = some (_, _) from rfl)]
    rw [hhead, bind_some (store32_eq _ (by change _ ≤ s.committed; omega))]
    dsimp only
    by_cases h0 : headNode xs ≠ 0
    · have hlt' : headNode xs + 4 < 2^32 := by omega
      rw [if_pos h0, u32_of_lt hlt', bind_some (store32_eq _ (by change _ ≤ s.committed; omega)),
        modify_eq]
      simp only [m', m₁, if_pos h0]
    · rw [if_neg h0, modify_eq]
      simp only [m', m₁, if_neg h0]
  · rw [hkeep.read32 (by omega) (by omega), read32_write32_of_apart _ _ (by omega),
      read32_write32 _ _ (by norm_num)]
  · have hlt' : headNode xs < 2^32 := by omega
    rw [hkeep.read32 (by omega) (by omega), read32_write32 _ _ hlt']
  · cases xs with
    | nil => trivial
    | cons y ys =>
      obtain ⟨-, hnext, hys⟩ := hlinked
      have hy := hsp y List.mem_cons_self
      refine ⟨?_, ?_, ?_⟩
      · change read32 (if y + 8 ≠ 0 then write32 m₁ (y + 8 + 4) (x + 8) else m₁) (y + 8 + 4) = _
        rw [if_pos (by omega), read32_write32 _ _ (by omega)]
      · have hs := hsame (y + 8) (y + 8 + 4) (by omega) (by dsimp only [headNode]; omega)
        rw [hs.read32 (le_refl _) (le_refl _), hnext]
      · refine hys.congr fun z hz => ?_
        have hz₁ := hsp z (List.mem_cons_of_mem _ hz)
        have hz₂ := (List.pairwise_cons.mp hspaced).1 z hz
        exact hsame _ _ (by omega) (by dsimp only [headNode]; omega)
  · exact List.pairwise_cons.mpr ⟨hsp, hspaced⟩
  · intro y hy
    rcases List.mem_cons.mp hy with rfl | hy
    · exact hin
    · exact hinside y hy
  · intro lo hi h
    refine hsame lo hi (h x List.mem_cons_self) ?_
    rcases headNode_cases xs with ⟨-, h0⟩ | ⟨z, hz, h'⟩
    · exact .inl h0
    · have := h z (List.mem_cons_of_mem _ hz)
      omega

/-- The walk of `malloc` finds the first free block that is large enough. -/
theorem firstFit_spec (total : ℕ) {fuel prev : ℕ} {xs : List ℕ} {size : ℕ → ℕ}
    (h : Linked s.mem prev xs) (hfuel : xs.length < fuel)
    (htag : ∀ x ∈ xs, Tagged s.mem ⟨x, size x, false⟩ ∧ Block.Wf ⟨x, size x, false⟩)
    (hin : ∀ x ∈ xs, x + 16 ≤ s.committed) (hlt : s.committed ≤ 2^32) :
    (firstFit total fuel (headNode xs) s = some (none, s) ∧ ∀ x ∈ xs, size x < total) ∨
      ∃ x ∈ xs, total ≤ size x ∧ firstFit total fuel (headNode xs) s = some (some (x, size x), s) := by
  induction xs generalizing prev fuel with
  | nil =>
    obtain ⟨fuel, rfl⟩ : ∃ n, fuel = n + 1 := ⟨fuel - 1, by simp at hfuel; omega⟩
    exact .inl ⟨rfl, by simp⟩
  | cons x xs ih =>
    obtain ⟨fuel, rfl⟩ : ∃ n, fuel = n + 1 := ⟨fuel - 1, by simp at hfuel; omega⟩
    obtain ⟨-, hnext, hxs⟩ := h
    have hx := hin x List.mem_cons_self
    obtain ⟨htagx, hwf⟩ := htag x List.mem_cons_self
    have hb : sub32 (x + 8) hdr = x := by
      rw [sub32_of_le (by unfold hdr; omega) (by omega)]
      exact Nat.add_sub_cancel x 8
    have hsize : blkSize x s = some (size x, s) := blkSize_eq htagx hwf (by dsimp only; omega)
    rw [show headNode (x :: xs) = x + 8 from rfl]
    unfold firstFit
    rw [if_neg (by omega)]
    rw [hb, bind_some hsize]
    by_cases hge : size x ≥ total
    · rw [if_pos hge]
      exact .inr ⟨x, List.mem_cons_self, hge, rfl⟩
    · rw [if_neg hge, bind_some (load32_eq (by omega)), hnext]
      rcases ih hxs (by simpa using hfuel) (fun y hy => htag y (List.mem_cons_of_mem _ hy))
        (fun y hy => hin y (List.mem_cons_of_mem _ hy)) with ⟨hr, hall⟩ | ⟨y, hy, hle, hr⟩
      · left
        refine ⟨hr, fun y hy => ?_⟩
        rcases List.mem_cons.mp hy with rfl | hy
        · exact Nat.lt_of_not_le hge
        · exact hall y hy
      · exact .inr ⟨y, List.mem_cons_of_mem _ hy, hle, hr⟩

end Lua2wasm.Heap
