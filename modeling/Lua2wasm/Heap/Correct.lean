import Lua2wasm.Heap.Malloc

/-!
# The heap under a program

A program calls the allocator and writes to the blocks it holds. `Reachable` are the heaps that it
can get to, with the blocks it holds (`live`: the pointers, each with the size asked for). In each of
them the heap is in order (`WellFormed`), and every further call returns and does what it should
(`Correct`), as long as the calls make nothing wrap (`NoWrap`). A request near `2^32` bytes wraps:
the check in `malloc` lets through some sizes for which the size of the block is 0
(`heap_not_correct`).
-/

namespace Lua2wasm.Heap

open ByteMem Fallible

/-- What a program does: a call of the allocator, or a write of a byte to a block it holds. -/
inductive Call
  | malloc (req : ℕ)
  | calloc (nmemb size : ℕ)
  | realloc (p n : ℕ)
  | free (p : ℕ)
  | store (p i : ℕ) (v : BitVec 8)

/-- The blocks that a program holds: pointers, with the sizes asked for. -/
abbrev Live := List (ℕ × ℕ)

/-- The blocks without the one at `p`. -/
def Live.drop (live : Live) (p : ℕ) : Live := live.filter (·.1 ≠ p)

/-- Carry out a call. The flag says whether the host grants a `memory.grow`. -/
def Call.exec (granted : Bool) : Call → HeapM ℕ
  | .malloc req => Heap.malloc granted req
  | .calloc nmemb size => Heap.calloc granted nmemb size
  | .realloc p n => Heap.realloc granted p n
  | .free p => do
    Heap.free p
    Pure.pure 0
  | .store p i v => fun s =>
    if p + i < s.committed then some (0, { s with mem := Function.update s.mem (p + i) v }) else none

/-- The blocks held after a call that returned `r`. -/
def Call.liveAfter (live : Live) (r : ℕ) : Call → Live
  | .malloc req => if r = 0 then live else (r, req) :: live
  | .calloc nmemb size => if r = 0 then live else (r, nmemb * size) :: live
  | .realloc p n =>
    if p = 0 then if r = 0 then live else (r, n) :: live
    else if n = 0 then live.drop p
    else if r = 0 then live else (r, n) :: live.drop p
  | .free p => live.drop p
  | .store _ _ _ => live

/-- Sizes are 32-bit numbers, and only blocks that are held are freed, resized or written to. -/
def Permitted (live : Live) : Call → Prop
  | .malloc req => req < 2^32
  | .calloc nmemb size => nmemb < 2^32 ∧ size < 2^32
  | .realloc p n => n < 2^32 ∧ (p = 0 ∨ ∃ m, (p, m) ∈ live)
  | .free p => p = 0 ∨ ∃ m, (p, m) ∈ live
  | .store p i _ => ∃ m, (p, m) ∈ live ∧ i < m

/-- The payload of the block at `p`, by its header. -/
def capacity (m : Mem) (p : ℕ) : ℕ := read32 m (p - 8) / 8 * 8 - 16

/-- The size that a call asks `malloc` for, if it asks. -/
def Call.request (s : HeapState) : Call → Option ℕ
  | .malloc req => some req
  | .calloc nmemb size => if nmemb * size ≥ 2^32 then none else some (nmemb * size)
  | .realloc p n =>
    if p = 0 then some n
    else if n = 0 then none
    else if n ≤ capacity s.mem p then none else some n
  | .free _ => none
  | .store _ _ _ => none

/-- The condition of the theorem: the request is refused by the check in `malloc`, or serving it
makes nothing wrap. -/
def NoWrap (s : HeapState) (c : Call) : Prop :=
  ∀ req ∈ c.request s, req > 0xfffffff0 ∨
    ∃ bs fl, HeapWf s.ensureInit bs fl ∧ Serves s.ensureInit bs req

/-! ## What a call should do -/

/-- The heap is as it was, but that the allocator may have been set up. -/
def Unchanged (s s' : HeapState) : Prop := s' = s ∨ s' = s.ensureInit

/-- The bytes of blocks are kept. -/
def Keeps (s s' : HeapState) (live : Live) : Prop :=
  ∀ q ∈ live, SameOn s.mem s'.mem q.1 (q.1 + q.2)

/-- The pointer `r` has room for `n` bytes: it is aligned, and the bytes are committed and apart from
those of all blocks held. -/
structure Room (live : Live) (n r : ℕ) (s' : HeapState) : Prop where
  aligned : r % 8 = 0
  inside : r + max n 1 ≤ s'.committed
  apart : ∀ q ∈ live, r + max n 1 ≤ q.1 ∨ q.1 + max q.2 1 ≤ r

/-- A request for `n` bytes fails without a change, or it returns room and keeps all blocks. -/
def Allocates (s : HeapState) (live : Live) (n r : ℕ) (s' : HeapState) : Prop :=
  (r = 0 ∧ Unchanged s s') ∨ (r ≠ 0 ∧ Room live n r s' ∧ Keeps s s' live)

/-- What a call should do that returns `r`. -/
def Correct (s : HeapState) (live : Live) (r : ℕ) (s' : HeapState) : Call → Prop
  | .malloc req => Allocates s live req r s'
  | .calloc nmemb size => Allocates s live (nmemb * size) r s' ∧
      (r ≠ 0 → ∀ i < nmemb * size, s'.mem (r + i) = 0)
  | .realloc p n =>
    if p = 0 then Allocates s live n r s'
    else if n = 0 then r = 0 ∧ Keeps s s' (live.drop p)
    else (r = 0 ∧ Unchanged s s') ∨ (r ≠ 0 ∧ Room (live.drop p) n r s' ∧ Keeps s s' (live.drop p) ∧
      ∀ m, (p, m) ∈ live → ∀ i < min m n, s'.mem (r + i) = s.mem (p + i))
  | .free p => Keeps s s' (live.drop p)
  | .store p i v => s'.mem (p + i) = v ∧ Keeps s s' (live.drop p)

/-! ## The invariant -/

/-- The memory that a program starts with. The linker puts `__heap_base` into the initial memory,
behind the program's data. -/
structure Fresh (s : HeapState) : Prop where
  inited : s.inited = false
  base_pos : 0 < s.heapBase
  base_le : s.heapBase ≤ s.committed
  base_lt : s.heapBase ≤ 2^32 - 8
  pages_le : s.pages ≤ 2^16

/-- The blocks in use are those held, each with room for the bytes asked for. -/
structure Owns (bs : List Block) (live : Live) : Prop where
  exact : (live.map (·.1)).Perm ((usedOf bs).map (·.start + 8))
  room : ∀ q ∈ live, ∃ b ∈ usedOf bs, q.1 = b.start + 8 ∧ q.2 + 16 ≤ b.size

/-- The heap is in order, and its blocks in use are those held. -/
def WellFormed (s : HeapState) (live : Live) : Prop :=
  (Fresh s ∧ live = []) ∨ ∃ bs fl, HeapWf s bs fl ∧ Owns bs live

/-- The heaps that a program can get to, with the blocks it holds. -/
inductive Reachable (s₀ : HeapState) : HeapState → Live → Prop
  | start : Reachable s₀ s₀ []
  | call {s s' live r granted} {c : Call} (h : Reachable s₀ s live) (hp : Permitted live c)
      (hw : NoWrap s c) (he : c.exec granted s = some (r, s')) :
      Reachable s₀ s' (c.liveAfter live r)

variable {s s' : HeapState} {live : Live} {bs bs' : List Block} {fl fl' : List ℕ} {b : Block}
variable {p n : ℕ} {s₀ : HeapState}

/-- A heap that has not been used is empty once it is set up. -/
theorem Fresh.ensureInit (h : Fresh s) : HeapWf s.ensureInit [] [] := by
  obtain ⟨hinit, hpos, hle, hlt, hpages⟩ := h
  have hup : alignUp s.heapBase = (s.heapBase + 7) / 8 * 8 := by
    unfold alignUp
    rw [u32_of_lt (by omega)]
  have hpage : s.committed = s.pages * 65536 := rfl
  unfold HeapState.ensureInit
  rw [if_neg (by simp [hinit])]
  refine ⟨⟨rfl, ?_, ?_, ?_, ?_, ?_, hpages, rfl⟩, ⟨rfl, by simp, .nil⟩, by simp,
    ⟨rfl, trivial, .nil, by simp⟩, .refl _⟩
  · change alignUp s.heapBase % 8 = 0
    omega
  · change 0 < alignUp s.heapBase
    omega
  · change alignUp s.heapBase < 2^32
    omega
  · change alignUp s.heapBase ≤ s.pages * 65536
    omega
  · change 0 < s.pages
    omega

/-- In a heap that is in order, setting the allocator up again does nothing. -/
theorem HeapWf.ensureInit (h : HeapWf s bs fl) : s.ensureInit = s := if_pos h.ok.inited

theorem Owns.nil : Owns [] [] := ⟨.refl _, by simp⟩

/-- Setting up the allocator. -/
theorem WellFormed.ensureInit (h : WellFormed s live) :
    ∃ bs fl, HeapWf s.ensureInit bs fl ∧ Owns bs live := by
  rcases h with ⟨hf, rfl⟩ | ⟨bs, fl, hwf, hown⟩
  · exact ⟨[], [], hf.ensureInit, .nil⟩
  · rw [hwf.ensureInit]
    exact ⟨bs, fl, hwf, hown⟩

theorem ensureInit_mem (s : HeapState) : s.ensureInit.mem = s.mem := by
  unfold HeapState.ensureInit
  split_ifs <;> rfl

theorem ensureInit_idem (s : HeapState) : s.ensureInit.ensureInit = s.ensureInit := by
  unfold HeapState.ensureInit
  split_ifs <;> simp_all

/-- `malloc` begins by setting up the allocator. -/
theorem malloc_ensureInit (granted : Bool) (req : ℕ) (s : HeapState) :
    malloc granted req s = malloc granted req s.ensureInit := by
  unfold malloc
  rw [bind_some (show ensureInit s = some ((), s.ensureInit) from rfl),
    bind_some (show ensureInit s.ensureInit = some ((), s.ensureInit.ensureInit) from rfl),
    ensureInit_idem]

/-- `malloc` refuses requests above the bound that it checks. -/
theorem malloc_refused (granted : Bool) {req : ℕ} (h : req > 0xfffffff0) (s : HeapState) :
    malloc granted req s = some (0, s.ensureInit) := by
  unfold malloc
  rw [bind_some (show ensureInit s = some ((), s.ensureInit) from rfl)]
  rw [if_neg (show ¬ req = 0 by omega), if_pos h]
  rfl

/-! ## The blocks held -/

/-- The block of a pointer that is held. -/
theorem Owns.block {p m : ℕ} (h : Owns bs live) (hp : (p, m) ∈ live) :
    ∃ xs b ys, bs = xs ++ b :: ys ∧ b.used = true ∧ p = b.start + 8 ∧ m + 16 ≤ b.size := by
  obtain ⟨b, hb, hpb, hm⟩ := h.room _ hp
  obtain ⟨hbs, hused⟩ := mem_usedOf.mp hb
  obtain ⟨xs, ys, rfl⟩ := List.append_of_mem hbs
  exact ⟨xs, b, ys, rfl, hused, hpb, hm⟩

/-- The pointers that are held are different. -/
theorem Owns.nodup {lo hi : ℕ} (h : Owns bs live) (hl : Layout lo bs hi) : (live.map (·.1)).Nodup := by
  refine h.exact.nodup_iff.mpr ?_
  have hp : ((usedOf bs).map (·.start + 8)).Pairwise (· < ·) := by
    rw [List.pairwise_map]
    refine (hl.tiles.pairwise.filter _).imp_of_mem fun {b c} hb _ hbc => ?_
    have := (hl.wf b (List.mem_filter.mp hb).1).room
    unfold Block.fin at hbc
    omega
  exact hp.imp fun h => ne_of_lt h

/-- The bytes of the blocks held are inside blocks in use, so they are kept with them. -/
theorem Owns.keeps (h : Owns bs live) (hk : KeepsUsed s.mem s'.mem bs) : Keeps s s' live := by
  intro q hq
  obtain ⟨b, hb, hq₁, hq₂⟩ := h.room q hq
  exact (hk b hb).mono (by omega) (by unfold Block.fin; omega)

/-- A block that is new among those in use has room. -/
theorem Served.room_of {req r : ℕ} (h : Served s bs req b s' bs' fl') (hown : Owns bs live)
    (hr : r = b.start + 8) : Room live req r s' := by
  obtain ⟨hwf, hused, hfresh, hroom, -, -⟩ := h
  have hb : b ∈ bs' := (mem_usedOf.mp (hfresh.symm.subset List.mem_cons_self)).1
  have hin := hwf.layout.tiles.mem hb
  have hbrk := hwf.ok.brk_le
  have hfin : b.fin = b.start + b.size := rfl
  have hal := hwf.layout.aligned hwf.ok.aligned b hb
  refine ⟨by omega, by omega, fun q hq => ?_⟩
  obtain ⟨c, hc, hq₁, hq₂⟩ := hown.room q hq
  have hcbs' : c ∈ usedOf bs' := hfresh.symm.subset (List.mem_cons_of_mem _ hc)
  -- The new block is not one of the old ones: it would be in the list twice.
  have hne : b ≠ c := by
    rintro rfl
    have hnodup : (b :: usedOf bs).Nodup := by
      refine hfresh.nodup_iff.mp ?_
      refine List.Nodup.of_map (·.start) ?_
      have hp : ((usedOf bs').map (·.start)).Pairwise (· < ·) := by
        rw [List.pairwise_map]
        refine (hwf.layout.tiles.pairwise.filter _).imp_of_mem fun {b c} hb _ hbc => ?_
        have := (hwf.layout.wf b (List.mem_filter.mp hb).1).room
        unfold Block.fin at hbc
        omega
      exact hp.imp fun h => ne_of_lt h
    exact (List.nodup_cons.mp hnodup).1 hc
  have := apart_of_pairwise hwf.layout.tiles.pairwise hb (mem_usedOf.mp hcbs').1 hne
  have hcfin : c.fin = c.start + c.size := rfl
  omega

/-- After a request is served, the blocks in use are those held. -/
theorem Served.owns {req r : ℕ} (h : Served s bs req b s' bs' fl') (hown : Owns bs live)
    (hr : r = b.start + 8) : Owns bs' ((r, req) :: live) := by
  constructor
  · rw [List.map_cons, hr]
    exact (hown.exact.cons _).trans (h.fresh.map fun b : Block => b.start + 8).symm
  · intro q hq
    rcases List.mem_cons.mp hq with rfl | hq
    · exact ⟨b, h.fresh.symm.subset List.mem_cons_self, hr, h.room⟩
    · obtain ⟨c, hc, hq⟩ := hown.room q hq
      exact ⟨c, h.fresh.symm.subset (List.mem_cons_of_mem _ hc), hq⟩

/-- After a block is freed, the blocks in use are the others. -/
theorem Owns.drop {xs ys : List Block} {lo hi : ℕ} (h : Owns (xs ++ b :: ys) live)
    (hl : Layout lo (xs ++ b :: ys) hi) (hused : b.used = true) (bs' : List Block)
    (hbs' : usedOf bs' = usedOf (xs ++ ys)) : Owns bs' (live.drop (b.start + 8)) := by
  have hnodup := h.nodup hl
  have hfresh : (usedOf (xs ++ b :: ys)).Perm (b :: usedOf bs') := by
    rw [hbs', usedOf_append, usedOf_append, usedOf_cons_used hused]
    exact List.perm_middle
  have hmap : (live.drop (b.start + 8)).map (·.1) = (live.map (·.1)).erase (b.start + 8) := by
    rw [hnodup.erase_eq_filter]
    unfold Live.drop
    rw [List.filter_map]
    congr 1
    refine List.filter_congr fun q _ => ?_
    by_cases hq : q.1 = b.start + 8 <;> simp [hq]
  constructor
  · rw [hmap]
    have := (h.exact.trans (hfresh.map fun b : Block => b.start + 8)).erase (b.start + 8)
    rwa [List.map_cons, List.erase_cons_head] at this
  · intro q hq
    obtain ⟨hq, hne⟩ := List.mem_filter.mp hq
    obtain ⟨c, hc, hq₁, hq₂⟩ := h.room q hq
    rcases List.mem_cons.mp (hfresh.subset hc) with rfl | hc
    · simp [hq₁] at hne
    · exact ⟨c, hc, hq₁, hq₂⟩

/-! ## The calls -/

/-- A call returns, does what it should, and leaves the heap in order. -/
def Succeeds (s : HeapState) (live : Live) (granted : Bool) (c : Call) : Prop :=
  ∃ r s', c.exec granted s = some (r, s') ∧ Correct s live r s' c ∧
    WellFormed s' (c.liveAfter live r)

/-- The outcome of `malloc` for a program. -/
theorem malloc_outcome (h : WellFormed s live) (granted : Bool) {req : ℕ}
    (hw : req > 0xfffffff0 ∨ ∃ bs fl, HeapWf s.ensureInit bs fl ∧ Serves s.ensureInit bs req) :
    ∃ bs fl, HeapWf s.ensureInit bs fl ∧ Owns bs live ∧
      (malloc granted req s = some (0, s.ensureInit) ∨ ∃ s' b bs' fl',
        malloc granted req s = some (b.start + 8, s') ∧ Served s.ensureInit bs req b s' bs' fl') := by
  obtain ⟨bs, fl, hwf, hown⟩ := h.ensureInit
  refine ⟨bs, fl, hwf, hown, ?_⟩
  rcases hw with hbig | ⟨bs', fl', hwf', hserves⟩
  · exact .inl (malloc_refused granted hbig s)
  · obtain rfl : bs = bs' := blocks_unique hwf.layout.tiles hwf'.layout.tiles hwf.layout.wf
      hwf'.layout.wf hwf.tagged hwf'.tagged
    rw [malloc_ensureInit]
    rcases malloc_spec hwf granted hserves with hnull | hserved
    · exact .inl hnull
    · exact .inr hserved

/-- `malloc` allocates. -/
theorem malloc_allocates (h : WellFormed s live) (granted : Bool) {req : ℕ}
    (hw : req > 0xfffffff0 ∨ ∃ bs fl, HeapWf s.ensureInit bs fl ∧ Serves s.ensureInit bs req) :
    ∃ r s', malloc granted req s = some (r, s') ∧ Allocates s live req r s' ∧
      WellFormed s' (if r = 0 then live else (r, req) :: live) ∧ s.committed ≤ s'.committed := by
  have hcom : s.ensureInit.committed = s.committed := by
    unfold HeapState.ensureInit
    split_ifs <;> rfl
  obtain ⟨bs, fl, hwf, hown, hnull | ⟨s', b, bs', fl', hrun, hserved⟩⟩ := malloc_outcome h granted hw
  · exact ⟨0, s.ensureInit, hnull, .inl ⟨rfl, .inr rfl⟩, .inr ⟨bs, fl, hwf, hown⟩, le_of_eq hcom.symm⟩
  · have hroom := hserved.room_of hown rfl
    refine ⟨b.start + 8, s', hrun, .inr ⟨by omega, hroom, ?_⟩, ?_, ?_⟩
    · have hk := hown.keeps hserved.keeps
      intro q hq
      have := hk q hq
      rwa [ensureInit_mem] at this
    · rw [if_neg (by omega)]
      exact .inr ⟨bs', fl', hserved.wf, hserved.owns hown rfl⟩
    · rw [← hcom]
      exact Nat.mul_le_mul_right _ hserved.pages

/-- Writes to a block in use leave the heap in order. -/
theorem HeapWf.write {xs ys : List Block} {m' : Mem} (h : HeapWf s (xs ++ b :: ys) fl)
    (hused : b.used = true) (hsame : ∀ lo hi, hi ≤ b.start + 8 ∨ b.fin - 8 ≤ lo → SameOn s.mem m' lo hi) :
    HeapWf { s with mem := m' } (xs ++ b :: ys) fl := by
  have hp := h.layout.tiles.pairwise
  have hfree (x : ℕ) (hx : x ∈ fl) : b.fin ≤ x + 8 ∨ x + 16 ≤ b.start :=
    (links_apart hp h.layout.wf (h.exact.subset hx) (c := b) (by simp)).2.2 hused
  refine ⟨⟨h.ok.inited, h.ok.aligned, h.ok.pos, h.ok.brk_lt, h.ok.brk_le, h.ok.pages_pos,
    h.ok.pages_le, h.ok.endPtr⟩, h.layout, fun c hc => ?_,
    ⟨h.free.head, h.free.linked.congr fun x hx => hsame _ _ ?_, h.free.spaced, h.free.inside⟩, h.exact⟩
  · refine (h.tagged c hc).congr (h.layout.wf c hc) (hsame _ _ ?_) (hsame _ _ ?_)
    all_goals
      have hcfin : c.fin = c.start + c.size := rfl
      by_cases hne : c = b
      · subst hne
        omega
      · have := apart_of_pairwise hp hc (c := b) (by simp) hne
        omega
  · have := hfree x hx
    omega

/-- The block that is held at a pointer, in a heap that is in order. -/
theorem WellFormed.block (h : WellFormed s live) (hp : (p, n) ∈ live) :
    ∃ xs b ys fl, HeapWf s (xs ++ b :: ys) fl ∧ Owns (xs ++ b :: ys) live ∧ b.used = true ∧
      p = b.start + 8 ∧ n + 16 ≤ b.size := by
  rcases h with ⟨-, rfl⟩ | ⟨bs, fl, hwf, hown⟩
  · cases hp
  · obtain ⟨xs, b, ys, rfl, hb⟩ := hown.block hp
    exact ⟨xs, b, ys, fl, hwf, hown, hb⟩

/-- `free` frees. -/
theorem free_frees (h : WellFormed s live) (hp : (p, n) ∈ live) :
    ∃ m' head, free p s = some ((), { s with mem := m', freeList := head }) ∧
      Keeps s { s with mem := m', freeList := head } (live.drop p) ∧
      WellFormed { s with mem := m', freeList := head } (live.drop p) := by
  obtain ⟨xs, b, ys, fl, hwf, hown, hused, rfl, -⟩ := h.block hp
  obtain ⟨m', head, bs', fl', hrun, hwf', hbs', hkeep⟩ := free_spec hwf hused
  have hdrop := hown.drop hwf.layout hused bs' hbs'
  refine ⟨m', head, hrun, fun q hq => ?_, .inr ⟨bs', fl', hwf', hdrop⟩⟩
  obtain ⟨c, hc, hq₁, hq₂⟩ := hdrop.room q hq
  rw [hbs'] at hc
  exact (hkeep c hc).mono (by omega) (by unfold Block.fin; omega)

/-- The capacity that the header of a block gives. -/
theorem Tagged.capacity {m : Mem} (h : Tagged m b) (hwf : b.Wf) :
    Heap.capacity m (b.start + 8) = b.size - 16 := by
  unfold Heap.capacity
  rw [Nat.add_sub_cancel, h.1, tagWord_size _ hwf.aligned]

/-- The payload of a block that is held is room apart from the other blocks held. -/
theorem WellFormed.room {p m n : ℕ} (h : WellFormed s live) (hp : (p, m) ∈ live)
    (hn : n ≤ m ∨ n ≤ capacity s.mem p) : Room (live.drop p) n p s := by
  obtain ⟨xs, b, ys, fl, hwf, hown, hused, rfl, hm⟩ := h.block hp
  have hb : b ∈ xs ++ b :: ys := by simp
  have hbwf := hwf.layout.wf b hb
  have hin := hwf.layout.tiles.mem hb
  have hbrk := hwf.ok.brk_le
  have hfin : b.fin = b.start + b.size := rfl
  have hal := hwf.layout.aligned hwf.ok.aligned b hb
  rw [(hwf.tagged b hb).capacity hbwf] at hn
  refine ⟨by omega, by omega, fun q hq => ?_⟩
  obtain ⟨hq, hne⟩ := List.mem_filter.mp hq
  obtain ⟨c, hc, hq₁, hq₂⟩ := hown.room q hq
  have hcb : c ∈ xs ++ b :: ys := (mem_usedOf.mp hc).1
  have hbc : b ≠ c := by
    rintro rfl
    simp [hq₁] at hne
  have := apart_of_pairwise hwf.layout.tiles.pairwise hb hcb hbc
  have hcfin : c.fin = c.start + c.size := rfl
  omega

/-- Writes to a block that is held leave the heap in order, and the other blocks alone. -/
theorem WellFormed.write (h : WellFormed s live) (hp : (p, n) ∈ live) (m' : Mem)
    (hsame : ∀ lo hi, hi ≤ p ∨ p + n ≤ lo → SameOn s.mem m' lo hi) :
    WellFormed { s with mem := m' } live ∧ Keeps s { s with mem := m' } (live.drop p) := by
  have hroom := h.room hp (.inl (le_refl n))
  obtain ⟨xs, b, ys, fl, hwf, hown, hused, rfl, hm⟩ := h.block hp
  have hfin : b.fin = b.start + b.size := rfl
  refine ⟨.inr ⟨_, fl, hwf.write hused fun lo hi hout => hsame lo hi (by omega), hown⟩, ?_⟩
  intro q hq
  have := hroom.apart q hq
  exact hsame _ _ (by omega)

/-- A block that is held may count with another size that it has room for. -/
theorem WellFormed.resize {p m n : ℕ} (h : WellFormed s live) (hp : (p, m) ∈ live)
    (hn : n ≤ capacity s.mem p) : WellFormed s ((p, n) :: live.drop p) := by
  obtain ⟨xs, b, ys, fl, hwf, hown, hused, rfl, hm⟩ := h.block hp
  have hb : b ∈ xs ++ b :: ys := by simp
  have hbwf := hwf.layout.wf b hb
  rw [(hwf.tagged b hb).capacity hbwf] at hn
  have hdrop := hown.drop hwf.layout hused (xs ++ ys) rfl
  refine .inr ⟨_, fl, hwf, ⟨?_, ?_⟩⟩
  · have hfresh : (usedOf (xs ++ b :: ys)).Perm (b :: usedOf (xs ++ ys)) := by
      rw [usedOf_append, usedOf_append, usedOf_cons_used hused]
      exact List.perm_middle
    exact (hdrop.exact.cons _).trans (hfresh.map fun b : Block => b.start + 8).symm
  · intro q hq
    rcases List.mem_cons.mp hq with rfl | hq
    · exact ⟨b, mem_usedOf.mpr ⟨hb, hused⟩, rfl, by dsimp only; omega⟩
    · exact hown.room q (List.mem_filter.mp hq).1

/-- `realloc` reads the capacity of the block from its header. -/
theorem blkSize_held (h : WellFormed s live) (hp : (p, n) ∈ live) :
    p ≠ 0 ∧ n ≤ capacity s.mem p ∧ p + capacity s.mem p ≤ s.committed ∧
      ∃ size, blkSize (sub32 p hdr) s = some (size, s) ∧ sub32 (sub32 size hdr) ftr = capacity s.mem p := by
  obtain ⟨xs, b, ys, fl, hwf, hown, hused, rfl, hm⟩ := h.block hp
  have hb : b ∈ xs ++ b :: ys := by simp
  have hbwf := hwf.layout.wf b hb
  have hin := hwf.layout.tiles.mem hb
  have hbrk := hwf.ok.brk_le
  have hblt := hwf.ok.brk_lt
  have hfin : b.fin = b.start + b.size := rfl
  have htag := hwf.tagged b hb
  have hstart : sub32 (b.start + 8) hdr = b.start := by
    rw [sub32_of_le (by unfold hdr; omega) (by omega)]
    exact Nat.add_sub_cancel b.start 8
  have hsize : sub32 (sub32 b.size hdr) ftr = b.size - 16 := by
    unfold sub32 u32 hdr ftr
    omega
  rw [htag.capacity hbwf, hstart]
  exact ⟨by omega, by omega, by omega, b.size, blkSize_eq htag hbwf (by omega), hsize⟩

/-- `calloc`. -/
theorem calloc_succeeds (h : WellFormed s live) (granted : Bool) (nmemb size : ℕ)
    (hw : NoWrap s (.calloc nmemb size)) : Succeeds s live granted (.calloc nmemb size) := by
  unfold Succeeds
  simp only [Call.exec, Correct, Call.liveAfter]
  unfold calloc
  by_cases hover : nmemb * size ≥ 2^32
  · rw [if_pos hover]
    exact ⟨0, s, rfl, ⟨.inl ⟨rfl, .inl rfl⟩, by simp⟩, by simpa using h⟩
  · have hreq : nmemb * size ∈ (Call.calloc nmemb size).request s := by
      simp only [Call.request]
      rw [if_neg hover]
      rfl
    obtain ⟨r, s', hrun, halloc, hwf, -⟩ := malloc_allocates h granted (hw _ hreq)
    rw [if_neg hover, bind_some hrun]
    by_cases hr : r = 0
    · rw [if_neg (by simpa using hr)]
      exact ⟨r, s', rfl, ⟨halloc, fun hne => absurd hr hne⟩, hwf⟩
    · obtain ⟨hr0, -⟩ | ⟨-, hroom, hkeep⟩ := halloc
      · exact absurd hr0 hr
      rw [if_neg hr] at hwf
      have hset : memset r 0 (nmemb * size) s' =
          some ((), { s' with mem := fill s'.mem r 0 (nmemb * size) }) := by
        have := hroom.inside
        exact if_pos (by omega)
      obtain ⟨hwf', -⟩ := hwf.write List.mem_cons_self (fill s'.mem r 0 (nmemb * size))
        fun lo hi hout => sameOn_fill _ (by omega)
      rw [if_pos hr, bind_some hset]
      refine ⟨r, _, rfl, ⟨.inr ⟨hr, ⟨hroom.aligned, hroom.inside, hroom.apart⟩, fun q hq => ?_⟩,
        fun _ i hi => ?_⟩, ?_⟩
      · have := hroom.apart q hq
        exact (hkeep q hq).trans (sameOn_fill _ (by omega))
      · exact if_pos ⟨Nat.le_add_right _ _, by omega⟩
      · rw [if_neg hr]
        exact hwf'

/-- `realloc` of a block that is held. -/
theorem realloc_succeeds {p m : ℕ} (h : WellFormed s live) (hp : (p, m) ∈ live) (granted : Bool)
    {n : ℕ} (hn : n ≠ 0) (hw : NoWrap s (.realloc p n)) : Succeeds s live granted (.realloc p n) := by
  obtain ⟨hp0, hcap, hcom, size, hsize, havail⟩ := blkSize_held h hp
  unfold Succeeds
  simp only [Call.exec, Correct, Call.liveAfter, if_neg hp0, if_neg hn]
  unfold realloc
  rw [if_neg hp0, if_neg hn, bind_some hsize, havail]
  by_cases hfits : n ≤ capacity s.mem p
  · -- The block is large enough as it is.
    rw [if_pos hfits]
    refine ⟨p, s, rfl, .inr ⟨hp0, h.room hp (.inr hfits), fun q _ => SameOn.refl _ _ _,
      fun _ _ _ _ => rfl⟩, ?_⟩
    rw [if_neg hp0]
    exact h.resize hp hfits
  · have hreq : n ∈ (Call.realloc p n).request s := by
      simp only [Call.request]
      rw [if_neg hp0, if_neg hn, if_neg hfits]
      rfl
    obtain ⟨q, s₁, hrun, halloc, hwf₁, hgrow⟩ := malloc_allocates h granted (hw n hreq)
    rw [if_neg hfits, bind_some hrun]
    by_cases hq : q = 0
    · rw [if_pos hq]
      rw [if_pos hq] at hwf₁
      obtain ⟨-, hun⟩ | ⟨hne, -⟩ := halloc
      · exact ⟨0, s₁, rfl, .inl ⟨rfl, hun⟩, hwf₁⟩
      · exact absurd hq hne
    · obtain ⟨hq0, -⟩ | ⟨-, hroom, hkeep⟩ := halloc
      · exact absurd hq0 hq
      rw [if_neg hq] at hwf₁
      have hpq := hroom.apart (p, m) hp
      have hqin := hroom.inside
      -- The old block is still in memory after `malloc`, so the copy and `free` see it.
      have hp₁ : (p, m) ∈ (q, n) :: live := List.mem_cons_of_mem _ hp
      have hcopy : memcpy q p (capacity s.mem p) s₁ =
          some ((), { s₁ with mem := copy s₁.mem q p (capacity s.mem p) }) :=
        if_pos ⟨by omega, by omega⟩
      obtain ⟨hwf₂, hkeep₂⟩ := hwf₁.write List.mem_cons_self
        (copy s₁.mem q p (capacity s.mem p)) fun lo hi hout => sameOn_copy _ (by omega)
      obtain ⟨m₃, head, hrun₃, hkeep₃, hwf₃⟩ := free_frees hwf₂ hp₁
      have hdrop : Live.drop ((q, n) :: live) p = (q, n) :: live.drop p := by
        unfold Live.drop
        rw [List.filter_cons_of_pos (by simpa using by omega)]
      rw [hdrop] at hkeep₃ hwf₃
      rw [if_neg hq, bind_some hcopy, bind_some hrun₃]
      refine ⟨q, _, rfl, .inr ⟨hq, ⟨hroom.aligned, hroom.inside, fun r hr => ?_⟩, fun r hr => ?_,
        fun m' hm' i hi => ?_⟩, ?_⟩
      · exact hroom.apart r (List.mem_filter.mp hr).1
      · have hr' := (List.mem_filter.mp hr).1
        have := hroom.apart r hr'
        have hcopied : SameOn s₁.mem (copy s₁.mem q p (capacity s.mem p)) r.1 (r.1 + r.2) :=
          sameOn_copy _ (by omega)
        exact ((hkeep r hr').trans hcopied).trans (hkeep₃ r (List.mem_cons_of_mem _ hr))
      · obtain ⟨-, hcap', -⟩ := blkSize_held h hm'
        have h₁ : s₁.mem (p + i) = s.mem (p + i) := hkeep _ hm' _ (Nat.le_add_right _ _) (by dsimp only; omega)
        have h₂ : copy s₁.mem q p (capacity s.mem p) (q + i) = s₁.mem (p + i) := by
          unfold copy
          rw [if_pos (by omega), Nat.add_sub_cancel_left]
        have h₃ := hkeep₃ (q, n) List.mem_cons_self (q + i) (Nat.le_add_right _ _) (by dsimp only; omega)
        exact h₃.trans (h₂.trans h₁)
      · rw [if_neg hq]
        exact hwf₃

/-- A held pointer is not null. -/
theorem WellFormed.ne_zero {p m : ℕ} (h : WellFormed s live) (hp : (p, m) ∈ live) : p ≠ 0 :=
  (blkSize_held h hp).1

/-- Every call succeeds in a heap that is in order, if it makes nothing wrap. -/
theorem call_succeeds (h : WellFormed s live) (granted : Bool) {c : Call} (hp : Permitted live c)
    (hw : NoWrap s c) : Succeeds s live granted c := by
  cases c with
  | malloc req =>
    obtain ⟨r, s', hrun, halloc, hwf, -⟩ := malloc_allocates h granted (hw req rfl)
    exact ⟨r, s', hrun, halloc, hwf⟩
  | calloc nmemb size => exact calloc_succeeds h granted nmemb size hw
  | realloc p n =>
    by_cases hp0 : p = 0
    · -- Resizing nothing is allocating.
      have hreq : n ∈ (Call.realloc p n).request s := by
        simp only [Call.request]
        rw [if_pos hp0]
        rfl
      obtain ⟨r, s', hrun, halloc, hwf, -⟩ := malloc_allocates h granted (hw n hreq)
      unfold Succeeds
      simp only [Call.exec, Correct, Call.liveAfter, if_pos hp0]
      unfold realloc
      rw [if_pos hp0]
      exact ⟨r, s', hrun, halloc, hwf⟩
    · obtain ⟨m, hm⟩ := hp.2.resolve_left hp0
      by_cases hn : n = 0
      · -- Resizing to nothing is freeing.
        obtain ⟨m', head, hrun, hkeep, hwf⟩ := free_frees h hm
        unfold Succeeds
        simp only [Call.exec, Correct, Call.liveAfter, if_neg hp0, if_pos hn]
        unfold realloc
        rw [if_neg hp0, if_pos hn, bind_some hrun]
        exact ⟨0, _, rfl, ⟨rfl, hkeep⟩, hwf⟩
      · exact realloc_succeeds h hm granted hn hw
  | free p =>
    by_cases hp0 : p = 0
    -- freeing nothing changes nothing
    · have hdrop : live.drop p = live := by
        refine List.filter_eq_self.mpr fun q hq => ?_
        have := h.ne_zero hq
        simpa [hp0] using this
      subst hp0
      refine ⟨0, s, rfl, fun q _ => SameOn.refl _ _ _, ?_⟩
      change WellFormed s (live.drop 0)
      rw [hdrop]
      exact h
    · obtain ⟨m, hm⟩ := hp.resolve_left hp0
      obtain ⟨m', head, hrun, hkeep, hwf⟩ := free_frees h hm
      unfold Succeeds
      simp only [Call.exec, Correct, Call.liveAfter]
      rw [bind_some hrun]
      exact ⟨0, _, rfl, hkeep, hwf⟩
  | store p i v =>
    obtain ⟨m, hm, hi⟩ := hp
    have hin := (h.room hm (.inl (le_refl m))).inside
    obtain ⟨hwf, hkeep⟩ := h.write hm (Function.update s.mem (p + i) v) fun lo hi' hout a ha₁ ha₂ =>
      Function.update_of_ne (by omega) _ _
    have hrun : Call.exec granted (.store p i v) s =
        some (0, { s with mem := Function.update s.mem (p + i) v }) := if_pos (by omega)
    exact ⟨0, _, hrun, ⟨Function.update_self _ _ _, hkeep⟩, hwf⟩

/-- The heap stays in order on every run whose calls make nothing wrap. -/
theorem Reachable.wellFormed (h : Reachable s₀ s live) (h₀ : Fresh s₀) : WellFormed s live := by
  induction h with
  | start => exact .inl ⟨h₀, rfl⟩
  | call h hp hw he ih =>
    obtain ⟨r, s', hrun, -, hwf⟩ := call_succeeds ih _ hp hw
    rw [he] at hrun
    cases hrun
    exact hwf

/-- The allocator is correct on every run whose calls make nothing wrap: the heap stays in order, and
every call returns and does what it should. -/
theorem heap_correct (h₀ : Fresh s₀) (h : Reachable s₀ s live) :
    WellFormed s live ∧ ∀ granted c, Permitted live c → NoWrap s c → Succeeds s live granted c :=
  ⟨h.wellFormed h₀, fun granted _ hp hw => call_succeeds (h.wellFormed h₀) granted hp hw⟩

/-- A memory of one page, with the heap behind the first 1024 bytes. -/
def onePage : HeapState := { mem := fun _ => 0, pages := 1, heapBase := 1024 }

theorem onePage_fresh : Fresh onePage := by
  constructor <;> decide

/-- The heap after some calls, for which memory may grow. -/
def heapAfter (s : HeapState) (cs : List Call) : HeapState :=
  cs.foldl (fun s c => ((c.exec true s).getD (0, s)).2) s

/-- A run goes on with a call that asks for little, in a heap that has not grown far. -/
theorem Reachable.small {cs : List Call} {c : Call} {r : ℕ} (h₀ : Fresh s₀)
    (h : Reachable s₀ (heapAfter s₀ cs) live) (hp : Permitted live c)
    (hsmall : ∀ req ∈ c.request (heapAfter s₀ cs), req < 2^16) (hbrk : (heapAfter s₀ cs).ensureInit.brk < 2^16)
    (he : (c.exec true (heapAfter s₀ cs)).map Prod.fst = some r) :
    NoWrap (heapAfter s₀ cs) c ∧ Reachable s₀ (heapAfter s₀ (cs ++ [c])) (c.liveAfter live r) := by
  have hw : NoWrap (heapAfter s₀ cs) c := by
    intro req hreq
    have hreq' := hsmall req hreq
    obtain ⟨bs, fl, hwf, -⟩ := (h.wellFormed h₀).ensureInit
    refine .inr ⟨bs, fl, hwf, by omega, .inr ?_⟩
    unfold blockSize
    omega
  obtain ⟨⟨_, s'⟩, hexec, rfl⟩ := Option.map_eq_some_iff.mp he
  have hlast : heapAfter s₀ (cs ++ [c]) = s' := by
    unfold heapAfter at hexec ⊢
    rw [List.foldl_append, List.foldl_cons, List.foldl_nil, hexec]
    rfl
  rw [hlast]
  exact ⟨hw, h.call hp hw hexec⟩

/-- Two blocks; the first is freed, and a smaller request is served from it. The second is then resized. -/
theorem heap_correct_reuse :
    WellFormed (heapAfter onePage [.malloc 100, .malloc 50, .free 1032, .malloc 40]) [(1032, 40), (1152, 50)] ∧
      Succeeds (heapAfter onePage [.malloc 100, .malloc 50, .free 1032, .malloc 40]) [(1032, 40), (1152, 50)] true
        (.realloc 1152 500) := by
  have hstart : Reachable onePage (heapAfter onePage []) [] := .start
  have hfirst := (hstart.small (c := .malloc 100) (r := 1032) onePage_fresh (show 100 < 2^32 by decide)
    (by decide +kernel) (by decide +kernel) (by decide +kernel)).2
  have hsecond := (hfirst.small (c := .malloc 50) (r := 1152) onePage_fresh (show 50 < 2^32 by decide)
    (by decide +kernel) (by decide +kernel) (by decide +kernel)).2
  have hfreed := (hsecond.small (c := .free 1032) (r := 0) onePage_fresh (.inr ⟨100, by decide⟩)
    (by decide +kernel) (by decide +kernel) (by decide +kernel)).2
  have hreused := (hfreed.small (c := .malloc 40) (r := 1032) onePage_fresh (show 40 < 2^32 by decide)
    (by decide +kernel) (by decide +kernel) (by decide +kernel)).2
  obtain ⟨hwf, hcalls⟩ := heap_correct onePage_fresh hreused
  have hp : Permitted [(1032, 40), (1152, 50)] (.realloc 1152 500) := ⟨by decide, .inr ⟨50, by decide⟩⟩
  have hnext := (hreused.small (r := ((Call.exec true (.realloc 1152 500) (heapAfter onePage
    [.malloc 100, .malloc 50, .free 1032, .malloc 40])).getD (0, onePage)).1) onePage_fresh hp (by decide +kernel)
    (by decide +kernel) (by decide +kernel)).1
  exact ⟨hwf, hcalls true _ hp hnext⟩

/-- Without the condition it is not: a request for `2^32 - 16` bytes passes the check in `malloc`,
the size of its block wraps to 0, and it is granted in a memory of one page. -/
theorem heap_not_correct : ¬ ∀ s₀ s live, Fresh s₀ → Reachable s₀ s live → ∀ granted c,
    Permitted live c → Succeeds s live granted c := by
  intro h
  obtain ⟨r, s', hrun, hcorrect, -⟩ := h onePage onePage [] onePage_fresh .start true
    (.malloc 0xfffffff0) (show 0xfffffff0 < 2^32 by decide)
  have hr : (Call.exec true (.malloc 0xfffffff0) onePage).map (fun x => (x.1, x.2.pages)) =
      some (1032, 1) := by decide
  rw [hrun] at hr
  obtain ⟨rfl, hpages⟩ : r = 1032 ∧ s'.pages = 1 := by simpa using hr
  rcases hcorrect with ⟨hr0, -⟩ | ⟨-, hroom, -⟩
  · cases hr0
  · have := hroom.inside
    unfold HeapState.committed page at this
    omega

end Lua2wasm.Heap
