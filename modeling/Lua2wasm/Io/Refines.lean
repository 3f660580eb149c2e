import Lua2wasm.Io.Abstract
import Lua2wasm.Io.Reading

/-!
# A handle refines a file

The handle of `Io.File` behaves as the file with a position of `Io.Abstract`, in every run of calls that its buffers
and its numbers of JavaScript admit (`handle_refines`): lines of at most 16384 bytes, counts of 32 bits, positions below
`2^53`. The handle does not look at its mode when it reads, and drops what it has not written to the disk when it may
not write, so a call that the mode forbids is not admitted either.

The disk lags behind: it has the bytes of the file when the handle is flushed or closed. If nothing was written it is
left as it was before the file was opened, which for the modes `w` and `a` need not be what opening makes of it.
-/

namespace Lua2wasm.Io

/-! ## What is admitted -/

/-- What a format reads gets through `$fmt_buf`, and a count through an `i32`. -/
def AbsFile.FormatFits (f : AbsFile) : Format → Prop
  | .line => lineEnd f.rest ≤ fmtBufCap
  | .lineEnd => (f.rest.take (lineEnd f.rest + 1)).length ≤ fmtBufCap
  | .all => True
  | .num => True
  | .count n => -2^31 ≤ n.toInt ∧ n.toInt < 2^31

section

variable {V : Type} (parse : Bytes → V)

/-- So it is with some formats, one after the other. -/
def AbsFile.FormatsFit : List Format → AbsFile → Prop
  | [], _ => True
  | fmt :: fmts, f => f.FormatFits fmt ∧ ∀ v f', f.readFormat luaNumRe parse fmt = some (v, f') → f'.FormatsFit fmts

/-- Where a write begins. -/
def AbsFile.writePos (f : AbsFile) : ℕ := if f.access.appends then f.bytes.length else f.pos

/-- A call that the mode allows, and whose numbers JavaScript has. -/
def AbsFile.Admits (f : AbsFile) : Op → Prop
  | .read fmts => f.access.canRead ∧ AbsFile.FormatsFit parse (formatsOf fmts) f
  | .write args => args = [] ∨ f.access.canWrite ∧ f.writePos + args.flatten.length < 2^53
  | .seek whence offset => offset.toInt.natAbs < 2^53 ∧ ((f.base whence : ℤ) + offset.toInt).natAbs < 2^53
  | .flush => True
  | .close => True

/-- Every call of a run is admitted when it is made. Calls of a closed file always are. -/
def AbsState.AdmitsAll : List Op → AbsState → Prop
  | [], _ => True
  | op :: ops, s => (∀ f, s = .opened f → f.Admits parse op) ∧ AdmitsAll ops (s.call luaNumRe parse op).2

end

/-! ## The relation -/

/-- A value of a method shows that of the file. -/
def Shows {V : Type} : Ret V → AbsRet V → Prop
  | .values vs, .values vs' => vs = vs'
  | .file, .file => True
  | .pos p, .pos n => p.toInt = n
  | .done, .done => True
  | .fail _, .fail => True
  | .raised _, .raised => True
  | _, _ => False

/-- A handle stands for a file. The disk may be stale until the handle is flushed, and it stays so if `untouched`: if
nothing was written and opening alone should have changed it. -/
def Tracks (untouched : Prop) : AbsState → Handle → Prop
  | .opened f, h => ∃ g, h.entry = some (g, decide f.access.canWrite) ∧ g.buf = f.bytes ∧ g.pos = f.pos ∧
      g.append = decide f.access.appends ∧ (g.dirty = true → f.access.canWrite) ∧
      (g.dirty = true ∨ h.disk = some f.bytes ∨ untouched)
  | .closed bytes, h => h.entry = none ∧ (h.disk = some bytes ∨ untouched)

variable {V : Type} {parse : Bytes → V} {f : AbsFile} {g : BufferedFile} {disk : Option Bytes} {untouched : Prop}

theorem Tracks.mono {s : AbsState} {h : Handle} {untouched' : Prop} (htracks : Tracks untouched s h)
    (himp : untouched → untouched') : Tracks untouched' s h := by
  cases s with
  | opened f =>
    obtain ⟨g, hentry, hbuf, hpos, happend, hdirty, hdisk⟩ := htracks
    exact ⟨g, hentry, hbuf, hpos, happend, hdirty, hdisk.imp_right (Or.imp_right himp)⟩
  | closed bytes => exact ⟨htracks.1, htracks.2.imp_right himp⟩

/-! ## Reading -/

/-- Reading a format moves the position only, and the handle does it as the file does. -/
theorem readFormat_refines {fmt : Format} (hbuf : g.buf = f.bytes) (hpos : g.pos = f.pos) (hfits : f.FormatFits fmt) :
    match f.readFormat luaNumRe parse fmt with
    | none => readFormat parse g fmt = none
    | some (v, f') => f' = { f with pos := f'.pos } ∧ readFormat parse g fmt = some (v, { g with pos := f'.pos }) := by
  have hrest : g.rest = f.rest := by
    unfold BufferedFile.rest AbsFile.rest
    rw [hbuf, hpos]
  have hskip : ∀ n, g.skip n = { g with pos := f.pos + n } := fun n => by rw [← hpos]; rfl
  cases fmt with
  | line =>
    unfold AbsFile.readFormat readFormat
    dsimp only
    rw [fsReadLine_false, hrest, take_lineEnd, List.length_take]
    -- at the end of the file there is no line
    by_cases hnil : f.rest = []
    · rw [if_pos hnil, if_pos hnil]
      exact ⟨rfl, by rw [← hpos]; rfl⟩
    · rw [if_neg hnil, if_neg hnil]
      refine ⟨rfl, ?_⟩
      rw [fmtBuf_of_le hfits, hskip]
      rfl
  | lineEnd =>
    unfold AbsFile.readFormat readFormat
    dsimp only
    rw [fsReadLine_true, hrest]
    by_cases hnil : f.rest = []
    · rw [if_pos hnil, if_pos hnil]
      exact ⟨rfl, by rw [← hpos]; rfl⟩
    · rw [if_neg hnil, if_neg hnil]
      refine ⟨rfl, ?_⟩
      rw [fmtBuf_of_le hfits, hskip, List.length_take]
      rfl
  | all =>
    refine ⟨rfl, ?_⟩
    unfold readFormat
    rw [readAllStr_eq, hrest, hskip]
  | num =>
    unfold AbsFile.readFormat readFormat BufferedFile.readNumStr
    have hdrop : g.buf.drop g.pos = f.rest := hrest
    have htail : g.buf.drop (g.pos + runLen isSpace f.rest) =
        AbsFile.rest { f with pos := f.pos + runLen isSpace f.rest } := by
      unfold AbsFile.rest
      rw [hbuf, hpos]
    dsimp only
    rw [hdrop, htail, hpos]
    rcases luaNumRe (AbsFile.rest { f with pos := f.pos + runLen isSpace f.rest }) with _ | n
    · exact ⟨rfl, rfl⟩
    · exact ⟨rfl, rfl⟩
  | count n =>
    -- a count that fits is not cut to 32 bits
    have hwrap : wrapI32 n = n.toInt := by
      unfold wrapI32
      rw [Int64.toInt_toInt32]
      exact Int.bmod_eq_of_le (by have := hfits.1; omega) (by have := hfits.2; omega)
    unfold AbsFile.readFormat readFormat
    dsimp only
    rw [hwrap]
    by_cases hneg : n.toInt < 0
    · rw [if_pos hneg, if_pos hneg]
    · rw [if_neg hneg, if_neg hneg, readNStr_eq, hrest]
      by_cases hzero : n.toInt = 0
      · have hcount : n.toInt.toNat = 0 := by omega
        rw [if_pos hzero, if_pos hcount]
        exact ⟨rfl, by rw [← hpos]; rfl⟩
      · have hcount : ¬ n.toInt.toNat = 0 := by omega
        rw [if_neg hzero, if_neg hcount]
        by_cases hnil : f.rest = []
        · rw [if_pos hnil, if_pos hnil]
          exact ⟨rfl, by rw [← hpos]; rfl⟩
        · rw [if_neg hnil, if_neg hnil]
          refine ⟨rfl, ?_⟩
          rw [hskip]
          rfl

/-- Reading some formats. -/
theorem readFormats_refines {fmts : List Format} (hbuf : g.buf = f.bytes) (hpos : g.pos = f.pos)
    (hfits : AbsFile.FormatsFit parse fmts f) :
    (f.readFormats luaNumRe parse fmts).2 = { f with pos := (f.readFormats luaNumRe parse fmts).2.pos } ∧
      readFormats parse fmts g = ((f.readFormats luaNumRe parse fmts).1,
        { g with pos := (f.readFormats luaNumRe parse fmts).2.pos }) := by
  induction fmts generalizing f g with
  | nil =>
    refine ⟨rfl, ?_⟩
    show (_, g) = (_, { g with pos := f.pos })
    rw [← hpos]
    rfl
  | cons fmt fmts ih =>
    obtain ⟨hfmt, hmore⟩ := hfits
    have hread := @readFormat_refines _ parse _ _ _ hbuf hpos hfmt
    unfold AbsFile.readFormats readFormats
    rcases hr : f.readFormat luaNumRe parse fmt with _ | ⟨v, f'⟩
    · rw [hr] at hread
      rw [hread]
      exact ⟨rfl, by rw [← hpos]⟩
    · rw [hr] at hread
      obtain ⟨hf', hread⟩ := hread
      obtain ⟨hmove, hrest⟩ := @ih f' { g with pos := f'.pos } (by rw [hf']; exact hbuf) rfl (hmore v f' hr)
      rw [hread]
      dsimp only at hrest ⊢
      rw [hrest]
      refine ⟨?_, rfl⟩
      rw [hmove, hf']

/-! ## Writing and seeking -/

/-- The host writes as on the file, up to the padding. -/
theorem splice_eq (b x : Bytes) (pos : ℕ) :
    (b ++ List.replicate (pos + x.length - b.length) 0).take pos ++ x ++
      (b ++ List.replicate (pos + x.length - b.length) 0).drop (pos + x.length) = overlay b pos x := by
  have hdrop : (b ++ List.replicate (pos + x.length - b.length) (0 : UInt8)).drop (pos + x.length) =
      b.drop (pos + x.length) := by
    rw [List.drop_append, List.drop_replicate]
    have : pos + x.length - b.length - (pos + x.length - b.length) = 0 := Nat.sub_self _
    rw [this, List.replicate_zero, List.append_nil]
  have htake : (b ++ List.replicate (pos + x.length - b.length) (0 : UInt8)).take pos =
      (b ++ List.replicate (pos - b.length) 0).take pos := by
    rw [List.take_append, List.take_append, List.take_replicate, List.take_replicate]
    congr 2
    omega
  rw [overlay, hdrop, htake]

theorem write_refines {x : Bytes} (hbuf : g.buf = f.bytes) (hpos : g.pos = f.pos)
    (happend : g.append = decide f.access.appends) (hfits : f.writePos + x.length < 2^53) :
    g.write x = some { g with buf := (f.write x).bytes, pos := (f.write x).pos, dirty := true } := by
  have hstart : (if g.append then g.buf.length else g.pos) = f.writePos := by
    unfold AbsFile.writePos
    rw [happend, hbuf, hpos]
    simp only [decide_eq_true_eq]
  unfold BufferedFile.write
  rw [hstart, if_neg (by omega), hbuf]
  dsimp only
  rw [splice_eq]
  rfl

/-- A small number is a number of JavaScript. -/
theorem jsNumber_of_lt {n : ℤ} (h : n.natAbs < 2^53) : jsNumber n = n := by
  unfold jsNumber roundDouble
  rw [if_pos h]
  exact Int.sign_mul_natAbs n

theorem seek_refines {whence : Whence} {offset : ℤ} (hbuf : g.buf = f.bytes) (hpos : g.pos = f.pos)
    (hoffset : offset.natAbs < 2^53) (hfits : ((f.base whence : ℤ) + offset).natAbs < 2^53) :
    g.seek whence (jsNumber offset) = { g with pos := (f.seek whence offset).pos } ∧ (f.seek whence offset).pos < 2^53 := by
  have hbase : g.base whence = f.base whence := by
    cases whence
    · rfl
    · exact hpos
    · exact congrArg List.length hbuf
  unfold BufferedFile.seek AbsFile.seek
  rw [jsNumber_of_lt hoffset, hbase, jsNumber_of_lt hfits]
  exact ⟨rfl, by dsimp only; omega⟩

/-! ## Runs -/

/-- A call of an open file. -/
theorem callOpen_refines {op : Op} {h : Handle} (htracks : Tracks untouched (.opened f) h) (hadmits : f.Admits parse op) :
    Shows (call parse h op).1 (f.call luaNumRe parse op).1 ∧
      Tracks (untouched ∧ ∀ args, op = .write args → args = []) (f.call luaNumRe parse op).2 (call parse h op).2 := by
  obtain ⟨g, hentry, hbuf, hpos, happend, hdirty, hdisk⟩ := htracks
  unfold call
  rw [hentry]
  cases op with
  -- a read moves the position, and the disk keeps what it had
  | read fmts =>
    obtain ⟨hread, hfits⟩ := hadmits
    obtain ⟨hmove, hrun⟩ := readFormats_refines hbuf hpos hfits
    unfold callOpen AbsFile.call
    dsimp only
    rw [if_pos hread, hrun]
    generalize f.readFormats luaNumRe parse (formatsOf fmts) = r at *
    obtain ⟨vs, f'⟩ := r
    dsimp only at hmove ⊢
    have htracks : Tracks (untouched ∧ ∀ args, Op.read fmts = .write args → args = []) (.opened f')
        { disk := h.disk, entry := some ({ g with pos := f'.pos }, decide f.access.canWrite) } := by
      rw [hmove]
      exact ⟨_, rfl, hbuf, rfl, happend, hdirty, hdisk.imp_right (Or.imp_right fun h => ⟨h, fun _ hop => by cases hop⟩)⟩
    cases vs with
    | none => exact ⟨trivial, htracks⟩
    | some vs => exact ⟨rfl, htracks⟩
  | write args =>
    unfold callOpen AbsFile.call
    dsimp only
    by_cases hargs : args = []
    · rw [if_pos hargs, if_pos hargs]
      refine ⟨trivial, g, rfl, hbuf, hpos, happend, hdirty, hdisk.imp_right (Or.imp_right fun h => ⟨h, ?_⟩)⟩
      rintro args' ⟨⟩
      exact hargs
    · obtain ⟨hwrite, hfits⟩ := hadmits.resolve_left hargs
      rw [if_neg hargs, if_neg hargs, if_pos hwrite, write_refines hbuf hpos happend hfits]
      exact ⟨trivial, _, rfl, rfl, rfl, happend, fun _ => hwrite, Or.inl rfl⟩
  | seek whence offset =>
    obtain ⟨hoffset, hfits⟩ := hadmits
    obtain ⟨hseek, hlt⟩ := seek_refines hbuf hpos hoffset hfits
    unfold callOpen AbsFile.call
    dsimp only
    rw [hseek]
    generalize hq : (f.seek whence offset.toInt).pos = q at *
    have hpos' : (Int64.ofInt q).toInt = q := Int64.toInt_ofInt_of_le (by omega) (by omega)
    have hmove : f.seek whence offset.toInt = { f with pos := q } := by rw [← hq]; rfl
    rw [hpos', if_neg (by omega), hmove]
    refine ⟨hpos', _, rfl, hbuf, rfl, happend, hdirty, ?_⟩
    exact hdisk.imp_right (Or.imp_right fun h => ⟨h, fun _ hop => by cases hop⟩)
  | flush =>
    unfold callOpen AbsFile.call fsFlush
    dsimp only
    -- unwritten changes go to the disk
    by_cases hd : g.dirty = true
    · rw [if_pos ⟨decide_eq_true (hdirty hd), hd⟩]
      exact ⟨trivial, _, rfl, hbuf, hpos, happend, fun h => (by cases h), Or.inr (Or.inl (congrArg some hbuf))⟩
    · rw [if_neg fun h => hd h.2]
      refine ⟨trivial, _, rfl, hbuf, hpos, happend, hdirty, ?_⟩
      exact hdisk.imp_right (Or.imp_right fun h => ⟨h, fun _ hop => by cases hop⟩)
  | close =>
    unfold callOpen AbsFile.call fsFlush
    dsimp only
    by_cases hd : g.dirty = true
    · rw [if_pos ⟨decide_eq_true (hdirty hd), hd⟩]
      exact ⟨trivial, rfl, Or.inl (congrArg some hbuf)⟩
    · rw [if_neg fun h => hd h.2]
      exact ⟨trivial, rfl, (hdisk.resolve_left hd).imp_right fun h => ⟨h, fun _ hop => by cases hop⟩⟩

/-- A file that is closed stays as it is, and every call raises an error. -/
theorem closed_refines {bytes : Bytes} {h : Handle} (ops : List Op) (htracks : Tracks untouched (.closed bytes) h) :
    List.Forall₂ Shows (calls parse ops h).1 (AbsState.calls luaNumRe parse ops (.closed bytes)).1 ∧
      Tracks untouched (AbsState.calls luaNumRe parse ops (.closed bytes)).2 (calls parse ops h).2 := by
  induction ops with
  | nil => exact ⟨.nil, htracks⟩
  | cons op ops ih =>
    have hcall : call parse h op = (.raised "attempt to use a closed file".toList, h) := by
      unfold call
      rw [htracks.1]
    unfold calls AbsState.calls
    rw [hcall]
    exact ⟨.cons trivial ih.1, ih.2⟩

/-- Nothing is written before the handle is closed. -/
def Unwritten (ops : List Op) : Prop := ∀ args, .write args ∈ ops.takeWhile (· ≠ .close) → args = []

theorem unwritten_cons {op : Op} {ops : List Op} (hop : op ≠ .close) :
    Unwritten (op :: ops) ↔ (∀ args, op = .write args → args = []) ∧ Unwritten ops := by
  unfold Unwritten
  rw [List.takeWhile_cons_of_pos (by simpa using hop)]
  simp only [List.mem_cons, or_imp, forall_and, eq_comm]

/-- The calls of a run. -/
theorem calls_refine {h : Handle} {ops : List Op} (htracks : Tracks untouched (.opened f) h)
    (hadmits : AbsState.AdmitsAll parse ops (.opened f)) :
    List.Forall₂ Shows (calls parse ops h).1 (AbsState.calls luaNumRe parse ops (.opened f)).1 ∧
      Tracks (untouched ∧ Unwritten ops) (AbsState.calls luaNumRe parse ops (.opened f)).2 (calls parse ops h).2 := by
  induction ops generalizing f h untouched with
  | nil => exact ⟨.nil, htracks.mono fun hu => ⟨hu, fun args hargs => by cases hargs⟩⟩
  | cons op ops ih =>
    obtain ⟨hop, hops⟩ := hadmits
    obtain ⟨hshows, htracks'⟩ := callOpen_refines htracks (hop f rfl)
    unfold calls AbsState.calls
    have hcall : AbsState.call luaNumRe parse (.opened f) op = f.call luaNumRe parse op := rfl
    rw [hcall] at hops ⊢
    dsimp only
    rcases hf : (f.call luaNumRe parse op).2 with f' | bytes
    · rw [hf] at htracks' hops
      obtain ⟨hmore, hend⟩ := ih htracks' hops
      refine ⟨.cons hshows hmore, hend.mono fun h => ⟨h.1.1, (unwritten_cons ?_).mpr ⟨h.1.2, h.2⟩⟩⟩
      -- only closing closes a file
      rintro rfl
      cases hf
    · rw [hf] at htracks'
      obtain ⟨hmore, hend⟩ := @closed_refines _ parse _ _ _ ops htracks'
      refine ⟨.cons hshows hmore, hend.mono fun hu => ⟨hu.1, ?_⟩⟩
      have hclose : op = .close := by
        unfold AbsFile.call at hf
        cases op with
        | read fmts =>
          dsimp only at hf
          split at hf
          · split at hf <;> cases hf
          · cases hf
        | write args =>
          dsimp only at hf
          split at hf
          · cases hf
          · split at hf <;> cases hf
        | close => rfl
        | _ => cases hf
      intro args hmem
      rw [hclose, List.takeWhile_cons_of_neg (by simp)] at hmem
      cases hmem

/-! ## Opening -/

/-- What a mode allows. -/
theorem parseFileMode_eq (mode : List Char) : parseFileMode mode = (accessOf mode).map fun a =>
    { read := decide a.canRead, write := decide a.canWrite, append := decide a.appends,
      needExisting := decide (a.base ≠ 'w'), mustExist := decide (a.base = 'r') } := by
  unfold parseFileMode accessOf
  by_cases hmode : mode = []
  · subst hmode
    rfl
  · rw [if_neg hmode]
    rcases dropBinary mode with _ | ⟨c, s⟩
    · rw [if_neg hmode]
      rfl
    · dsimp only [List.head?_cons]
      generalize (c :: s).contains '+' = plus
      by_cases hr : c = 'r'
      · subst hr
        cases plus <;> rfl
      by_cases hw : c = 'w'
      · subst hw
        cases plus <;> rfl
      by_cases ha : c = 'a'
      · subst ha
        cases plus <;> rfl
      rw [if_neg (by simp [hr, hw, ha])]
      split
      · next h => exact absurd (Option.some.inj h) hr
      · next h => exact absurd (Option.some.inj h) hw
      · next h => exact absurd (Option.some.inj h) ha
      · rfl

theorem base_eq_r {mode : List Char} {a : Access} (h : accessOf mode = some a) (hw : a.base ≠ 'w') (ha : a.base ≠ 'a') :
    a.base = 'r' := by
  unfold accessOf at h
  split at h
  · split at h
    · cases h
      rfl
    · cases h
  · split at h
    · next hc =>
      cases h
      exact hc.resolve_right fun h => h.elim hw ha
    · cases h

/-- A handle is opened as the file is, and every run of admitted calls shows what it gives on the file. Afterwards the
handle stands for the file: when it is closed the disk has the bytes of the file, unless opening alone changed them and
nothing was written. -/
theorem handle_refines (parse : Bytes → V) (path mode : List Char) (disk : Option Bytes) :
    match absOpen mode disk with
    | none => ∃ msg, fsOpen path mode disk = .error msg
    | some f => ∃ h, fsOpen path mode disk = .ok h ∧ ∀ ops, AbsState.AdmitsAll parse ops (.opened f) →
        List.Forall₂ Shows (calls parse ops h).1 (AbsState.calls luaNumRe parse ops (.opened f)).1 ∧
          Tracks (disk ≠ some f.bytes ∧ Unwritten ops) (AbsState.calls luaNumRe parse ops (.opened f)).2
            (calls parse ops h).2 := by
  -- what is opened stands for the file, and so it does after the calls
  have hopened : ∀ (a : Access) (bytes : Bytes), (∀ ops, AbsState.AdmitsAll parse ops
      (.opened ⟨a, bytes, if a.appends then bytes.length else 0⟩) →
      List.Forall₂ Shows (calls parse ops ⟨disk, some (BufferedFile.ofBytes bytes (decide a.appends), decide a.canWrite)⟩).1
          (AbsState.calls luaNumRe parse ops (.opened ⟨a, bytes, if a.appends then bytes.length else 0⟩)).1 ∧
        Tracks (disk ≠ some bytes ∧ Unwritten ops)
          (AbsState.calls luaNumRe parse ops (.opened ⟨a, bytes, if a.appends then bytes.length else 0⟩)).2
          (calls parse ops ⟨disk, some (BufferedFile.ofBytes bytes (decide a.appends), decide a.canWrite)⟩).2) := by
    intro a bytes ops hops
    refine @calls_refine _ parse _ (disk ≠ some bytes) _ _ ⟨_, rfl, rfl, ?_, rfl, fun h => (by cases h), ?_⟩ hops
    · show (if decide a.appends = true then bytes.length else 0) = _
      simp only [decide_eq_true_eq]
    · exact Or.inr (em _)
  have hmode := parseFileMode_eq mode
  unfold absOpen fsOpen
  rcases haccess : accessOf mode with _ | a <;> rw [haccess] at hmode
  · rw [Option.map_none] at hmode
    rw [hmode]
    exact ⟨_, rfl⟩
  · rw [Option.map_some] at hmode
    rw [hmode]
    dsimp only
    by_cases hw : a.base = 'w'
    · have happend : ¬ a.appends := fun h => absurd (hw.symm.trans h) (by decide)
      have hfresh : ¬ decide (a.base ≠ 'w') = true := fun h => of_decide_eq_true h hw
      have h := hopened a []
      rw [if_neg happend] at h
      rw [if_pos hw, if_neg hfresh]
      exact ⟨_, rfl, h⟩
    · have hload : decide (a.base ≠ 'w') = true := decide_eq_true hw
      rw [if_neg hw, if_pos hload]
      by_cases ha : a.base = 'a'
      · have happend : a.appends := ha
        have hcreate : ¬ decide (a.base = 'r') = true := fun h =>
          absurd (ha.symm.trans (of_decide_eq_true h)) (by decide)
        have h := hopened a (disk.getD [])
        rw [if_pos happend] at h
        rw [if_pos ha]
        cases disk with
        | none => exact ⟨_, if_neg hcreate, h⟩
        | some bytes => exact ⟨_, rfl, h⟩
      · have happend : ¬ a.appends := ha
        have hmust : decide (a.base = 'r') = true := decide_eq_true (base_eq_r haccess hw ha)
        rw [if_neg ha]
        cases disk with
        | none => exact ⟨_, if_pos hmust⟩
        | some bytes =>
          have h := hopened a bytes
          rw [if_neg happend] at h
          exact ⟨_, rfl, h⟩

/-- The theorem at a new file that is written to, rewound, read and closed. -/
theorem handle_refines_new : ∃ h, fsOpen ['f'] ['w', '+'] none = .ok h ∧
    List.Forall₂ Shows (calls (fun _ => ()) [.write [[104], [105]], .seek .set 0, .read [.line], .close] h).1
      [.file, .pos 0, .values [.str [104, 105]], .done] ∧
    (calls (fun _ => ()) [.write [[104], [105]], .seek .set 0, .read [.line], .close] h).2.disk = some [104, 105] := by
  have hrefines := handle_refines (fun _ => ()) ['f'] ['w', '+'] none
  have hopen : absOpen ['w', '+'] none = some ⟨⟨'w', true⟩, [], 0⟩ := rfl
  rw [hopen] at hrefines
  obtain ⟨h, hok, hrun⟩ := hrefines
  have hadmits : AbsState.AdmitsAll (fun _ => ()) [.write [[104], [105]], .seek .set 0, .read [.line], .close]
      (.opened ⟨⟨'w', true⟩, [], 0⟩) := by
    refine ⟨?_, ?_, ?_, ?_, trivial⟩ <;> rintro f ⟨⟩
    · exact Or.inr (by decide)
    · exact ⟨by decide, by decide⟩
    · refine ⟨by decide, ?_, fun v f' _ => trivial⟩
      show lineEnd [104, 105] ≤ fmtBufCap
      decide
    · trivial
  obtain ⟨hshows, -, hdisk⟩ := hrun _ hadmits
  refine ⟨h, hok, hshows, hdisk.resolve_right fun hstale => ?_⟩
  exact absurd (hstale.2 _ List.mem_cons_self) (by decide)

end Lua2wasm.Io
