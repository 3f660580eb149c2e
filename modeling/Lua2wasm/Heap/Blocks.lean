import Lua2wasm.Heap.Alloc

/-!
# The blocks of the heap

What the allocator's memory stands for: a list of blocks that lie end to end (`Tiles`), no two of
the free ones adjacent. `Layout` collects this. An operation replaces a few blocks in the middle of
the list by others that cover the same bytes, so each lemma here is about a list with a middle part.
-/

namespace Lua2wasm.Heap

open ByteMem

/-- A block: its first address, its size with header and footer, and whether it is in use. -/
structure Block where
  /-- The address of the header. -/
  start : ℕ
  /-- The bytes of the block. -/
  size : ℕ
  /-- Whether `malloc` handed it out. -/
  used : Bool

/-- The end of a block. -/
def Block.fin (b : Block) : ℕ := b.start + b.size

/-- A block has whole multiples of 8 bytes, and room for the links of the free list. -/
structure Block.Wf (b : Block) : Prop where
  aligned : b.size % 8 = 0
  room : 32 ≤ b.size

/-- The blocks lie end to end from `lo` to `hi`. -/
def Tiles : ℕ → List Block → ℕ → Prop
  | lo, [], hi => lo = hi
  | lo, b :: bs, hi => b.start = lo ∧ Tiles b.fin bs hi

/-- The blocks of a heap. -/
structure Layout (lo : ℕ) (bs : List Block) (hi : ℕ) : Prop where
  /-- They tile the heap. -/
  tiles : Tiles lo bs hi
  /-- Each is well formed. -/
  wf : ∀ b ∈ bs, b.Wf
  /-- No two adjacent ones are free. -/
  merged : bs.IsChain fun b b' => b.used = true ∨ b'.used = true

/-- The blocks in use. -/
def usedOf (bs : List Block) : List Block := bs.filter (·.used)

/-- The addresses of the free blocks. -/
def freeStarts (bs : List Block) : List ℕ := (bs.filter (!·.used)).map (·.start)

variable {lo hi mid : ℕ} {b b' : Block} {bs xs ys : List Block}

theorem tiles_append : Tiles lo (xs ++ ys) hi ↔ ∃ mid, Tiles lo xs mid ∧ Tiles mid ys hi := by
  induction xs generalizing lo with
  | nil =>
    constructor
    · exact fun h => ⟨lo, rfl, h⟩
    · rintro ⟨mid, rfl, h⟩
      exact h
  | cons x xs ih =>
    simp only [List.cons_append, Tiles, ih]
    constructor
    · rintro ⟨hx, mid, h⟩
      exact ⟨mid, ⟨hx, h.1⟩, h.2⟩
    · rintro ⟨mid, ⟨hx, h₁⟩, h₂⟩
      exact ⟨hx, mid, h₁, h₂⟩

theorem Tiles.le (h : Tiles lo bs hi) : lo ≤ hi := by
  induction bs generalizing lo with
  | nil => exact le_of_eq h
  | cons b bs ih =>
    obtain ⟨rfl, h⟩ := h
    exact (Nat.le_add_right _ _).trans (ih h)

/-- A block lies inside the tiled region. -/
theorem Tiles.mem (h : Tiles lo bs hi) (hb : b ∈ bs) : lo ≤ b.start ∧ b.fin ≤ hi := by
  induction bs generalizing lo with
  | nil => cases hb
  | cons c bs ih =>
    obtain ⟨rfl, h⟩ := h
    rcases List.mem_cons.mp hb with rfl | hb
    · exact ⟨le_refl _, h.le⟩
    · obtain ⟨h₁, h₂⟩ := ih h hb
      exact ⟨(Nat.le_add_right _ _).trans h₁, h₂⟩

/-- Each block ends before the later ones begin. -/
theorem Tiles.pairwise (h : Tiles lo bs hi) : bs.Pairwise fun b b' => b.fin ≤ b'.start := by
  induction bs generalizing lo with
  | nil => exact .nil
  | cons c bs ih =>
    obtain ⟨-, h⟩ := h
    exact List.pairwise_cons.mpr ⟨fun b hb => (h.mem hb).1, ih h⟩

/-- The blocks take at least 32 bytes each. -/
theorem Layout.length (h : Layout lo bs hi) : lo + 32 * bs.length ≤ hi := by
  obtain ⟨ht, hwf, -⟩ := h
  induction bs generalizing lo with
  | nil => exact le_of_eq ht
  | cons b bs ih =>
    obtain ⟨rfl, ht⟩ := ht
    have := ih ht fun c hc => hwf c (List.mem_cons_of_mem _ hc)
    have hb := (hwf b List.mem_cons_self).room
    unfold Block.fin at this
    rw [List.length_cons]
    omega

/-- All blocks begin at multiples of 8 if the heap does. -/
theorem Layout.aligned (h : Layout lo bs hi) (hlo : lo % 8 = 0) : ∀ b ∈ bs, b.start % 8 = 0 := by
  obtain ⟨ht, hwf, -⟩ := h
  induction bs generalizing lo with
  | nil => simp
  | cons b bs ih =>
    obtain ⟨rfl, ht⟩ := ht
    have hb := (hwf b List.mem_cons_self).aligned
    intro c hc
    rcases List.mem_cons.mp hc with rfl | hc
    · exact hlo
    · refine ih ?_ ht (fun c hc => hwf c (List.mem_cons_of_mem _ hc)) c hc
      unfold Block.fin
      omega

@[simp] theorem mem_freeStarts {x : ℕ} : x ∈ freeStarts bs ↔ ∃ b ∈ bs, b.used = false ∧ b.start = x := by
  simp [freeStarts, and_assoc]

@[simp] theorem mem_usedOf : b ∈ usedOf bs ↔ b ∈ bs ∧ b.used = true := by
  simp [usedOf]

theorem usedOf_append : usedOf (xs ++ ys) = usedOf xs ++ usedOf ys := List.filter_append ..

theorem freeStarts_append : freeStarts (xs ++ ys) = freeStarts xs ++ freeStarts ys := by
  simp [freeStarts]

@[simp] theorem usedOf_cons_used (h : b.used = true) : usedOf (b :: bs) = b :: usedOf bs := by
  simp [usedOf, h]

@[simp] theorem usedOf_cons_free (h : b.used = false) : usedOf (b :: bs) = usedOf bs := by
  simp [usedOf, h]

@[simp] theorem freeStarts_cons_used (h : b.used = true) : freeStarts (b :: bs) = freeStarts bs := by
  simp [freeStarts, h]

@[simp] theorem freeStarts_cons_free (h : b.used = false) :
    freeStarts (b :: bs) = b.start :: freeStarts bs := by
  simp [freeStarts, h]

end Lua2wasm.Heap
