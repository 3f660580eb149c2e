import Lua2wasm.Io.Reading

/-!
# The lines of a file

`io.lines` and the iterator behind it, which reads a line with every call and closes the file at its end. For every
file whose lines get through `$fmt_buf` a `for` loop gets the lines of the file, in order and each once, and finds the
file closed afterwards (`ioLines_lines`).
-/

namespace Lua2wasm.Io

/-- `$io_lines_iter`. -/
def ioLinesIter (h : Handle) : Option Bytes × Handle :=
  match h.entry with
  | none => (none, h)
  | some (f, writable) =>
    match fsReadLine f false with
    | (some s, f) => (some s, { h with entry := some (f, writable) })
    -- at the end of the file
    | (none, f) => (none, { disk := (fsFlush h.disk f writable).1, entry := none })

/-- Some calls of the iterator, one after the other. -/
def iterCalls : ℕ → Handle → List (Option Bytes) × Handle
  | 0, h => ([], h)
  | n + 1, h =>
    let (v, h) := ioLinesIter h
    let (vs, h) := iterCalls n h
    (v :: vs, h)

/-- `$builtin_io_lines`. -/
def ioLines (path : List Char) (disk : Option Bytes) : Except (List Char) Handle := fsOpen path ['r'] disk

/-- The text of some lines, each with its end, and of what is behind the last end. -/
def text (lines : List Bytes) (last : Bytes) : Bytes := (lines.flatMap (· ++ [10])) ++ last

/-- The lines of this text. -/
def linesOf (lines : List Bytes) (last : Bytes) : List Bytes := if last = [] then lines else lines ++ [last]

variable {f : BufferedFile} {line : Bytes} {writable : Bool}

theorem ne_newline (h : 10 ∉ line) : ∀ b ∈ line, decide (b ≠ 10) = true := by
  intro b hb
  apply decide_eq_true
  rintro rfl
  exact h hb

theorem lineEnd_append {s : Bytes} (h : 10 ∉ line) : lineEnd (line ++ 10 :: s) = line.length := by
  unfold lineEnd
  rw [List.takeWhile_append_of_pos (ne_newline h)]
  simp

theorem lineEnd_last (h : 10 ∉ line) : lineEnd line = line.length := by
  unfold lineEnd
  rw [List.takeWhile_eq_self_iff.mpr (ne_newline h)]

/-- A line with its end is given, and the cursor moves behind the end. -/
theorem readLine_line {s : Bytes} (hrest : f.rest = line ++ 10 :: s) (hline : 10 ∉ line) (hlen : line.length ≤ fmtBufCap) :
    fsReadLine f false = (some line, f.skip (line.length + 1)) := by
  have hne : f.rest ≠ [] := by rw [hrest]; simp
  rw [fsReadLine_false, if_neg hne, hrest, lineEnd_append hline, List.take_left' rfl, fmtBuf_of_le hlen]
  congr 2
  simp

/-- The last line may have no end. -/
theorem readLine_last (hrest : f.rest = line) (hne : line ≠ []) (hline : 10 ∉ line) (hlen : line.length ≤ fmtBufCap) :
    fsReadLine f false = (some line, f.skip line.length) := by
  rw [fsReadLine_false, if_neg (hrest ▸ hne), hrest, lineEnd_last hline, List.take_length, fmtBuf_of_le hlen,
    List.take_of_length_le (Nat.le_succ _)]

/-- Once the file is closed the iterator gives nothing. -/
theorem iterCalls_closed (n : ℕ) (disk : Option Bytes) :
    iterCalls n ⟨disk, none⟩ = (List.replicate n none, ⟨disk, none⟩) := by
  induction n with
  | zero => rfl
  | succ n ih =>
    have hiter : ioLinesIter ⟨disk, none⟩ = (none, ⟨disk, none⟩) := rfl
    unfold iterCalls
    rw [hiter]
    dsimp only
    rw [ih]
    rfl

/-- The calls from a cursor on, where the file has not been written to. -/
theorem iterCalls_lines {lines : List Bytes} {last : Bytes} (disk : Option Bytes) (n : ℕ) (hrest : f.rest = text lines last)
    (hclean : f.dirty = false) (hlines : ∀ l ∈ lines, 10 ∉ l ∧ l.length ≤ fmtBufCap)
    (hlast : 10 ∉ last ∧ last.length ≤ fmtBufCap) :
    iterCalls ((linesOf lines last).length + (n + 1)) ⟨disk, some (f, writable)⟩ =
      ((linesOf lines last).map some ++ List.replicate (n + 1) none, ⟨disk, none⟩) := by
  -- at the end of the file it is closed, and the other calls find it closed
  have hend : ∀ g : BufferedFile, g.rest = [] → g.dirty = false → iterCalls (n + 1) ⟨disk, some (g, writable)⟩ =
      (List.replicate (n + 1) none, ⟨disk, none⟩) := by
    intro g hg hdirty
    have hiter : ioLinesIter ⟨disk, some (g, writable)⟩ = (none, ⟨disk, none⟩) := by
      unfold ioLinesIter
      dsimp only
      rw [fsReadLine_false, if_pos hg]
      unfold fsFlush
      simp [hdirty]
    unfold iterCalls
    rw [hiter]
    dsimp only
    rw [iterCalls_closed]
    rfl
  induction lines generalizing f with
  | nil =>
    have hrest : f.rest = last := hrest
    unfold linesOf
    by_cases hnil : last = []
    · rw [if_pos hnil, List.length_nil, Nat.zero_add]
      exact hend f (hrest.trans hnil) hclean
    · rw [if_neg hnil]
      have hiter : ioLinesIter ⟨disk, some (f, writable)⟩ = (some last, ⟨disk, some (f.skip last.length, writable)⟩) := by
        unfold ioLinesIter
        dsimp only
        rw [readLine_last hrest hnil hlast.1 hlast.2]
      -- a last line without a newline leaves nothing
      have hdone : (f.skip last.length).rest = [] := by rw [rest_skip, hrest, List.drop_length]
      show iterCalls (1 + (n + 1)) _ = _
      rw [Nat.add_comm, iterCalls, hiter]
      dsimp only
      rw [hend _ hdone hclean]
      rfl
  | cons line lines ih =>
    obtain ⟨hline, hlines⟩ := List.forall_mem_cons.mp hlines
    have hsplit : f.rest = line ++ 10 :: text lines last := by
      rw [hrest, text, List.flatMap_cons, List.append_assoc, List.append_assoc]
      rfl
    have hcons : linesOf (line :: lines) last = line :: linesOf lines last := by
      unfold linesOf
      split <;> rfl
    have hiter : ioLinesIter ⟨disk, some (f, writable)⟩ =
        (some line, ⟨disk, some (f.skip (line.length + 1), writable)⟩) := by
      unfold ioLinesIter
      dsimp only
      rw [readLine_line hsplit hline.1 hline.2]
    have hmore : (f.skip (line.length + 1)).rest = text lines last := by
      rw [rest_skip, hsplit, ← List.drop_drop, List.drop_left' rfl]
      rfl
    rw [hcons, List.length_cons, Nat.add_right_comm, iterCalls, hiter]
    dsimp only
    rw [ih hmore hclean hlines]
    rfl

/-- A loop over the lines of a file gets them all, and nothing from the end of the file on, which is closed there and
left as it was. -/
theorem ioLines_lines (path : List Char) {lines : List Bytes} {last : Bytes}
    (hlines : ∀ l ∈ last :: lines, 10 ∉ l ∧ l.length ≤ fmtBufCap) :
    ∃ h, ioLines path (some (text lines last)) = .ok h ∧ ∀ n,
      iterCalls ((linesOf lines last).length + (n + 1)) h =
        ((linesOf lines last).map some ++ List.replicate (n + 1) none, ⟨some (text lines last), none⟩) := by
  obtain ⟨hlast, hlines⟩ := List.forall_mem_cons.mp hlines
  refine ⟨⟨some (text lines last), some (BufferedFile.ofBytes (text lines last) false, false)⟩, rfl, fun n => ?_⟩
  exact iterCalls_lines _ n rfl rfl hlines hlast

/-- The theorem at a file with an empty line, whose last line has no end. -/
theorem ioLines_lines_three : ∃ h, ioLines ['f'] (some [97, 10, 10, 98]) = .ok h ∧
    iterCalls 4 h = ([some [97], some [], some [98], none], ⟨some [97, 10, 10, 98], none⟩) := by
  obtain ⟨h, hok, hcalls⟩ := @ioLines_lines ['f'] [[97], []] [98] (by decide)
  exact ⟨h, hok, hcalls 0⟩

end Lua2wasm.Io
