import Lua2wasm.Lib.ByteMem

/-!
# The freestanding allocator

`freestanding/alloc.c`: `malloc`, `free`, `calloc` and `realloc` of the compiler's 32-bit build. A
block is a header word, a payload of at least 16 bytes and a footer word, each of the words padded
to 8 bytes; a free block has the links of the free list at the start of its payload.

Pointers and sizes are natural numbers below `2^32`, and each sum that the source computes in 32
bits is reduced (`u32`). A computation is `none` where the program traps, which is an access outside
the committed memory, or where it loops for ever. `memory.grow` may be refused at any time, so the
functions take a flag that says whether it is granted.
-/

namespace Lua2wasm.Heap

open ByteMem

/-- Arithmetic of `uint32_t` and `uintptr_t`. -/
def u32 (x : ℕ) : ℕ := x % 2^32

/-- A difference of pointers. -/
def sub32 (a b : ℕ) : ℕ := u32 (a + 2^32 - b)

/-- `PAGE`. -/
def page : ℕ := 65536

/-- `HDR`. -/
def hdr : ℕ := 8

/-- `FTR`. -/
def ftr : ℕ := 8

/-- `MIN_PAYLOAD`. -/
def minPayload : ℕ := 16

/-- `align_up` to `ALIGN`, which is 8. -/
def alignUp (x : ℕ) : ℕ := u32 (x + 7) / 8 * 8

/-- Linear memory, and the variables of the allocator. -/
structure HeapState where
  /-- The bytes of linear memory. -/
  mem : Mem
  /-- The committed pages. -/
  pages : ℕ
  /-- The address of `__heap_base`. -/
  heapBase : ℕ
  /-- `g_inited`. -/
  inited : Bool := false
  /-- `g_heap_start`. -/
  heapStart : ℕ := 0
  /-- `g_brk`. -/
  brk : ℕ := 0
  /-- `g_end`. -/
  endPtr : ℕ := 0
  /-- `g_free`. -/
  freeList : ℕ := 0

/-- A computation over the heap. -/
abbrev HeapM := StateT HeapState Option

/-- The number of committed bytes. -/
def HeapState.committed (s : HeapState) : ℕ := s.pages * page

/-- Read a word. -/
def load32 (a : ℕ) : HeapM ℕ := fun s =>
  if a + 4 ≤ s.committed then some (read32 s.mem a, s) else none

/-- Write a word. -/
def store32 (a v : ℕ) : HeapM Unit := fun s =>
  if a + 4 ≤ s.committed then some ((), { s with mem := write32 s.mem a v }) else none

/-- `memcpy`, to a region that does not overlap the source. -/
def memcpy (dst src n : ℕ) : HeapM Unit := fun s =>
  if dst + n ≤ s.committed ∧ src + n ≤ s.committed then
    some ((), { s with mem := copy s.mem dst src n })
  else none

/-- `memset`. -/
def memset (a : ℕ) (v : BitVec 8) (n : ℕ) : HeapM Unit := fun s =>
  if a + n ≤ s.committed then some ((), { s with mem := fill s.mem a v n }) else none

/-- `memory.grow`, with its result compared with -1. The memory has at most `2^16` pages. -/
def memoryGrow (granted : Bool) (delta : ℕ) : HeapM Bool := fun s =>
  if granted ∧ s.pages + delta ≤ 2^16 then some (true, { s with pages := s.pages + delta })
  else some (false, s)

/-- `ensure_init`, on the state. -/
def HeapState.ensureInit (s : HeapState) : HeapState :=
  if s.inited then s
  else { s with
    inited := true, heapStart := alignUp s.heapBase, brk := alignUp s.heapBase
    endPtr := u32 (s.pages * page), freeList := 0 }

/-- `ensure_init`. -/
def ensureInit : HeapM Unit := fun s => some ((), s.ensureInit)

/-- `heap_extend`: the old break, or 0 if the memory cannot grow. -/
def heapExtend (granted : Bool) (n : ℕ) : HeapM ℕ := do
  let s ← get
  let grown ←
    if u32 (s.brk + n) > s.endPtr then do
      let need := sub32 (u32 (s.brk + n)) s.endPtr
      let pages := u32 (need + (page - 1)) / page
      if ← memoryGrow granted pages then do
        modify fun s => { s with endPtr := u32 (s.endPtr + pages * page) }
        pure true
      else pure false
    else pure true
  if grown then do
    modify fun s => { s with brk := u32 (s.brk + n) }
    pure s.brk
  else pure 0

/-- `blk_size`. -/
def blkSize (b : ℕ) : HeapM ℕ := do
  let v ← load32 b
  pure (v / 8 * 8)

/-- `blk_used`. -/
def blkUsed (b : ℕ) : HeapM Bool := do
  let v ← load32 b
  pure (v % 2 = 1)

/-- The word that a header and a footer hold: the size, with bit 0 set in a used block. -/
def tagWord (size : ℕ) (used : Bool) : ℕ := if used then size / 2 * 2 + 1 else size

/-- `blk_set`. -/
def blkSet (b size : ℕ) (used : Bool) : HeapM Unit := do
  store32 b (tagWord size used)
  store32 (sub32 (u32 (b + size)) ftr) (tagWord size used)

/-- `fl_insert`. A node of the free list has the next node at its start, and the previous one 4 bytes
further on. -/
def flInsert (b : ℕ) : HeapM Unit := do
  let n := u32 (b + hdr)
  store32 (u32 (n + 4)) 0
  let s ← get
  store32 n s.freeList
  if s.freeList ≠ 0 then store32 (u32 (s.freeList + 4)) n
  modify fun s => { s with freeList := n }

/-- `fl_remove`. -/
def flRemove (b : ℕ) : HeapM Unit := do
  let n := u32 (b + hdr)
  let prev ← load32 (u32 (n + 4))
  let next ← load32 n
  if prev ≠ 0 then store32 prev next else modify fun s => { s with freeList := next }
  let next ← load32 n
  if next ≠ 0 then do
    let prev ← load32 (u32 (n + 4))
    store32 (u32 (next + 4)) prev

/-- The walk of `malloc` over the free list from node `n`: the first block of at least `total` bytes
with its size, if there is one. A walk that does not end within `2^32` nodes never ends. -/
def firstFit (total : ℕ) : ℕ → ℕ → HeapM (Option (ℕ × ℕ))
  | 0, _ => fun _ => none
  | fuel + 1, n =>
    if n = 0 then pure none
    else do
      let b := sub32 n hdr
      let bs ← blkSize b
      if bs ≥ total then pure (some (b, bs))
      else do
        let next ← load32 n
        firstFit total fuel next

/-- The size of the block that serves a request of `req` bytes. -/
def blockTotal (req : ℕ) : ℕ := u32 (u32 (hdr + max (alignUp req) minPayload) + ftr)

/-- `malloc`. -/
def malloc (granted : Bool) (req : ℕ) : HeapM ℕ := do
  ensureInit
  let req := if req = 0 then 1 else req
  if req > 0xfffffff0 then pure 0
  else do
    let total := blockTotal req
    let s ← get
    match ← firstFit total (2^32) s.freeList with
    | some (b, bs) => do
      flRemove b
      let rem := sub32 bs total
      if rem ≥ hdr + minPayload + ftr then do
        blkSet b total true
        let r := u32 (b + total)
        blkSet r rem false
        flInsert r
      else blkSet b bs true
      pure (u32 (b + hdr))
    | none => do
      let b ← heapExtend granted total
      if b = 0 then pure 0
      else do
        blkSet b total true
        pure (u32 (b + hdr))

/-- The first merge of `free`: the size of the block at `b`, with the following block if that is
free. -/
def mergeNext (b bs : ℕ) : HeapM ℕ := do
  let next := u32 (b + bs)
  let s ← get
  if next < s.brk then do
    if ← blkUsed next then pure bs
    else do
      flRemove next
      let ns ← blkSize next
      pure (u32 (bs + ns))
  else pure bs

/-- The second merge of `free`: the block at `b`, or the preceding one with it if that is free. -/
def mergePrev (b bs : ℕ) : HeapM (ℕ × ℕ) := do
  let s ← get
  if b > s.heapStart then do
    let pfoot ← load32 (sub32 b ftr)
    if pfoot % 2 = 1 then pure (b, bs)
    else do
      let ps := pfoot / 8 * 8
      let prev := sub32 b ps
      flRemove prev
      pure (prev, u32 (bs + ps))
  else pure (b, bs)

/-- `free`. -/
def free (p : ℕ) : HeapM Unit :=
  if p = 0 then pure ()
  else do
    let b := sub32 p hdr
    let bs ← blkSize b
    let bs ← mergeNext b bs
    let (b, bs) ← mergePrev b bs
    blkSet b bs false
    flInsert b

/-- `calloc`. -/
def calloc (granted : Bool) (nmemb size : ℕ) : HeapM ℕ :=
  if nmemb * size ≥ 2^32 then pure 0
  else do
    let p ← malloc granted (nmemb * size)
    if p ≠ 0 then memset p 0 (nmemb * size)
    pure p

/-- `realloc`. -/
def realloc (granted : Bool) (p n : ℕ) : HeapM ℕ :=
  if p = 0 then malloc granted n
  else if n = 0 then do
    free p
    pure 0
  else do
    let size ← blkSize (sub32 p hdr)
    let avail := sub32 (sub32 size hdr) ftr
    if n ≤ avail then pure p
    else do
      let q ← malloc granted n
      if q = 0 then pure 0
      else do
        memcpy q p avail
        free p
        pure q

end Lua2wasm.Heap
