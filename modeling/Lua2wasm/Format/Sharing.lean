import Lua2wasm.Format.Builder

/-!
# The shared builder

`$builder_take`, `$builder_give` and `$builder_put` of `runtime/prelude/patterns.wat`. The library functions that
build a result (`string.format`, `string.gsub`, `table.concat`) share one builder: a call takes it, or makes one of
its own while another call has it, and puts it back when it ends. In between it may run code of the program, and with
it other calls, in callbacks and metamethods. A call that raises puts nothing back.

The calls are steps here, one operation on a builder after the other, of any call that is in progress: nothing is
assumed about which calls are nested in which, so that this covers all nestings, errors that are raised at any level
and caught at any other, and calls in coroutines.

`calls_keep_apart` is the result: in every state, no two calls in progress have the same builder, nor is it the one
to be taken next, and what a call gives is what it has appended itself.
-/

namespace Lua2wasm.Format

open Table (Fault)
open Pack (orTrap u32 s32 ok_bind of_bind_ok)

/-- A library call. -/
inductive Call
  /-- In progress, with a builder. -/
  | running (b : ℕ)
  /-- Returned, or left by an error. -/
  | over
  deriving DecidableEq, Repr

/-- The builders, `$g_scratch_bld`, and the calls that there have been. -/
structure World where
  heap : List Buf
  scratch : Option ℕ
  calls : List Call
  deriving DecidableEq, Repr

/-- What a call does with its builder. Calls are numbered as they begin. -/
inductive Op
  /-- A call begins with `$builder_take`. -/
  | take
  /-- A call begins with `$builder_new`, for itself. -/
  | new
  /-- `$builder_append`. -/
  | append (c : ℕ) (src : List UInt8) (start n : UInt32)
  /-- `$builder_append_byte`. -/
  | appendByte (c : ℕ) (byte : UInt8)
  /-- The call returns with `$builder_give`. -/
  | give (c : ℕ)
  /-- The call returns with `$builder_finish`. -/
  | finish (c : ℕ)
  /-- The call returns something else, after `$builder_put`. -/
  | put (c : ℕ)
  /-- An error leaves the call. -/
  | raise (c : ℕ)
  deriving DecidableEq, Repr

namespace World

/-- The start of a program. -/
def init : World := ⟨[], none, []⟩

/-- `$builder_new`. -/
def builderNew (w : World) : ℕ × World := (w.heap.length, { w with heap := w.heap ++ [Buf.new] })

/-- `$builder_take`. -/
def builderTake (w : World) : Except Fault (ℕ × World) :=
  match w.scratch with
  | none => .ok w.builderNew
  | some b => do
    let buf ← orTrap w.heap[b]?
    .ok (b, { w with heap := w.heap.set b { buf with len := 0 }, scratch := none })

/-- `$builder_put`. -/
def builderPut (w : World) (b : ℕ) : Except Fault World := do
  let buf ← orTrap w.heap[b]?
  .ok (if buf.arr.length ≤ 65536 then { w with scratch := some b } else w)

/-- `$builder_finish`. -/
def builderFinish (w : World) (b : ℕ) : Except Fault (List UInt8) := do
  let buf ← orTrap w.heap[b]?
  buf.finish

/-- `$builder_give`. -/
def builderGive (w : World) (b : ℕ) : Except Fault (World × List UInt8) := do
  let w ← w.builderPut b
  let x ← w.builderFinish b
  .ok (w, x)

/-- A change of a builder. -/
def change (w : World) (b : ℕ) (f : Buf → Except Fault Buf) : Except Fault World := do
  let buf ← orTrap w.heap[b]?
  let buf ← f buf
  .ok { w with heap := w.heap.set b buf }

/-- A call begins with a builder. -/
def enter (w : World) (b : ℕ) : World := { w with calls := w.calls ++ [.running b] }

/-- A call ends. -/
def leave (w : World) (c : ℕ) : World := { w with calls := w.calls.set c .over }

/-- The builder of a call in progress. A call that is over does nothing. -/
def builderOf (w : World) (c : ℕ) : Except Fault ℕ :=
  match w.calls[c]? with
  | some (.running b) => .ok b
  | _ => .error .stuck

/-- One operation, with the string that it gives. -/
def step (w : World) : Op → Except Fault (World × Option (List UInt8))
  | .take => do
    let (b, w) ← w.builderTake
    .ok (w.enter b, none)
  | .new => .ok (w.builderNew.2.enter w.builderNew.1, none)
  | .append c src start n => do
    let b ← w.builderOf c
    let w ← w.change b fun buf => buf.append src start.toNat n.toNat
    .ok (w, none)
  | .appendByte c byte => do
    let b ← w.builderOf c
    let w ← w.change b fun buf => buf.appendByte byte
    .ok (w, none)
  | .give c => do
    let b ← w.builderOf c
    let (w, x) ← w.builderGive b
    .ok (w.leave c, some x)
  | .finish c => do
    let b ← w.builderOf c
    let x ← w.builderFinish b
    .ok (w.leave c, some x)
  | .put c => do
    let b ← w.builderOf c
    let w ← w.builderPut b
    .ok (w.leave c, none)
  | .raise c => do
    let _ ← w.builderOf c
    .ok (w.leave c, none)

end World

/-- The operations so far, with the strings that they gave. A trap ends the program. -/
inductive Run : World → List (Op × Option (List UInt8)) → Prop
  /-- Nothing has happened yet. -/
  | init : Run World.init []
  /-- One more operation. -/
  | step {w w' : World} {hist : List (Op × Option (List UInt8))} {op : Op} {r : Option (List UInt8)}
      (hrun : Run w hist) (hs : w.step op = .ok (w', r)) : Run w' (hist ++ [(op, r)])

/-- The bytes that an operation appends for a call. -/
def Op.bytes (c : ℕ) : Op → List UInt8
  | .append c' src start n => if c' = c ∧ 0 < s32 n.toNat then (src.drop start.toNat).take n.toNat else []
  | .appendByte c' byte => if c' = c then [byte] else []
  | _ => []

/-- The bytes that a call has appended. -/
def appended (hist : List (Op × Option (List UInt8))) (c : ℕ) : List UInt8 := (hist.map fun e => e.1.bytes c).flatten

/-! ## The invariant -/

/-- Every call in progress has a builder of its own, which holds what it has appended. -/
structure Apart (w : World) (hist : List (Op × Option (List UInt8))) : Prop where
  /-- The builders are in order. -/
  ok : ∀ (b : ℕ) (buf : Buf), w.heap[b]? = some buf → buf.Ok
  /-- No two calls have the same builder. -/
  own : ∀ (c c' b : ℕ), w.calls[c]? = some (.running b) → w.calls[c']? = some (.running b) → c = c'
  /-- The builder to be taken next is there, and no call has it. -/
  spare : ∀ b, w.scratch = some b → b < w.heap.length ∧ ∀ c : ℕ, w.calls[c]? ≠ some (.running b)
  /-- The builder of a call holds what it has appended. -/
  holds : ∀ (c b : ℕ), w.calls[c]? = some (.running b) →
    ∃ buf, w.heap[b]? = some buf ∧ buf.contents = appended hist c
  /-- Nothing was appended for a call that is still to come. -/
  later : ∀ c, w.calls.length ≤ c → appended hist c = []

variable {w w' : World} {hist : List (Op × Option (List UInt8))} {op : Op} {r : Option (List UInt8)} {b c c' n : ℕ}
  {buf : Buf} {x : List UInt8}

theorem appended_snoc : appended (hist ++ [(op, r)]) c = appended hist c ++ op.bytes c := by
  unfold appended
  rw [List.map_append, List.flatten_append]
  simp

theorem builderOf_eq (h : w.builderOf c = .ok b) : w.calls[c]? = some (.running b) := by
  unfold World.builderOf at h
  split at h
  · rename_i b' hc
    rw [hc, Except.ok.inj h]
  · cases h

theorem running_enter (h : (w.enter b).calls[c]? = some (.running n)) :
    w.calls[c]? = some (.running n) ∨ c = w.calls.length ∧ n = b := by
  unfold World.enter at h
  rw [List.getElem?_append] at h
  split at h
  · exact Or.inl h
  · right
    obtain ⟨hc, hb⟩ : c - w.calls.length = 0 ∧ b = n := by simpa [List.getElem?_singleton] using h
    exact ⟨by omega, hb.symm⟩

theorem running_leave (h : (w.leave c).calls[c']? = some (.running n)) : c' ≠ c ∧ w.calls[c']? = some (.running n) := by
  unfold World.leave at h
  obtain ⟨-, heq⟩ | hrun := Probe.of_getElem?_set h
  · cases heq
  · exact hrun

namespace Apart

/-- An operation that appends nothing. -/
theorem quiet (ha : Apart w hist) (hop : ∀ c, op.bytes c = []) : Apart w (hist ++ [(op, r)]) where
  ok := ha.ok
  own := ha.own
  spare := ha.spare
  holds c b hc := by
    rw [appended_snoc, hop, List.append_nil]
    exact ha.holds c b hc
  later c hc := by
    rw [appended_snoc, hop, List.append_nil]
    exact ha.later c hc

/-- A call begins with an empty builder that no other call has. -/
theorem enter (ha : Apart w hist) (hget : w.heap[b]? = some buf) (hempty : buf.contents = [])
    (hfree : ∀ c : ℕ, w.calls[c]? ≠ some (.running b)) (hnot : w.scratch ≠ some b) : Apart (w.enter b) hist where
  ok := ha.ok
  own c c' d hc hc' := by
    rcases running_enter hc with hc | ⟨rfl, rfl⟩ <;> rcases running_enter hc' with hc' | ⟨hc', hd⟩
    · exact ha.own c c' d hc hc'
    · exact absurd (hd ▸ hc) (hfree c)
    · exact absurd hc' (hfree c')
    · exact hc'.symm
  spare d hd := by
    obtain ⟨hlt, hno⟩ := ha.spare d hd
    refine ⟨hlt, ?_⟩
    intro c hc
    rcases running_enter hc with hc | ⟨-, rfl⟩
    · exact hno c hc
    · exact hnot hd
  holds c d hc := by
    rcases running_enter hc with hc | ⟨rfl, rfl⟩
    · exact ha.holds c d hc
    · exact ⟨buf, hget, by rw [hempty, ha.later _ (Nat.le_refl _)]⟩
  later c hc := by
    unfold World.enter at hc
    rw [List.length_append, List.length_singleton] at hc
    exact ha.later c (by omega)

/-- A call ends. -/
theorem leave (ha : Apart w hist) (c : ℕ) : Apart (w.leave c) hist where
  ok := ha.ok
  own c₁ c₂ d h₁ h₂ := ha.own c₁ c₂ d (running_leave h₁).2 (running_leave h₂).2
  spare d hd := ⟨(ha.spare d hd).1, fun c' hc' => (ha.spare d hd).2 c' (running_leave hc').2⟩
  holds c' d hc' := ha.holds c' d (running_leave hc').2
  later c' hc' := by
    unfold World.leave at hc'
    rw [List.length_set] at hc'
    exact ha.later c' hc'

/-- A builder that no call has is put back. -/
theorem putBack (ha : Apart w hist) (hb : b < w.heap.length) (hfree : ∀ c : ℕ, w.calls[c]? ≠ some (.running b)) :
    Apart { w with scratch := some b } hist where
  ok := ha.ok
  own := ha.own
  spare d hd := by
    cases hd
    exact ⟨hb, hfree⟩
  holds := ha.holds
  later := ha.later

/-- A call has a builder that there is. -/
theorem not_beyond (ha : Apart w hist) (hb : w.heap.length ≤ b) (c : ℕ) : w.calls[c]? ≠ some (.running b) := by
  intro hc
  obtain ⟨buf, hget, -⟩ := ha.holds c b hc
  have hlt := (List.getElem?_eq_some_iff.mp hget).1
  omega

/-- A builder more. -/
theorem grown (ha : Apart w hist) : Apart { w with heap := w.heap ++ [Buf.new] } hist where
  ok d buf hd := by
    rw [List.getElem?_append] at hd
    split at hd
    · exact ha.ok d buf hd
    · obtain ⟨-, rfl⟩ : d - w.heap.length = 0 ∧ Buf.new = buf := by simpa [List.getElem?_singleton] using hd
      exact Buf.new_ok
  own := ha.own
  spare d hd := by
    obtain ⟨hlt, hno⟩ := ha.spare d hd
    refine ⟨?_, hno⟩
    rw [List.length_append]
    omega
  holds c d hc := by
    obtain ⟨buf, hget, hcont⟩ := ha.holds c d hc
    refine ⟨buf, ?_, hcont⟩
    rw [List.getElem?_append_left (List.getElem?_eq_some_iff.mp hget).1, hget]
  later := ha.later

/-- The spare builder is emptied and no longer spare. -/
theorem emptied (ha : Apart w hist) (hb : w.scratch = some b) (hget : w.heap[b]? = some buf) :
    Apart { w with heap := w.heap.set b { buf with len := 0 }, scratch := none } hist where
  ok d buf' hd := by
    obtain ⟨rfl, rfl⟩ | ⟨-, hd⟩ := Probe.of_getElem?_set hd
    · exact ⟨(ha.ok d buf hget).cap, Nat.zero_le _⟩
    · exact ha.ok d buf' hd
  own := ha.own
  spare d hd := by
    cases hd
  holds c d hc := by
    have hne : b ≠ d := by
      rintro rfl
      exact (ha.spare b hb).2 c hc
    obtain ⟨buf', hget', hcont⟩ := ha.holds c d hc
    exact ⟨buf', by rw [List.getElem?_set_ne hne, hget'], hcont⟩
  later := ha.later

/-- A call appends to its builder. -/
theorem wrote (ha : Apart w hist) (hc : w.calls[c]? = some (.running b)) (hget : w.heap[b]? = some buf)
    {buf' : Buf} (hok : buf'.Ok) (hcont : buf'.contents = buf.contents ++ op.bytes c)
    (hothers : ∀ c', c' ≠ c → op.bytes c' = []) :
    Apart { w with heap := w.heap.set b buf' } (hist ++ [(op, r)]) where
  ok d buf₁ hd := by
    obtain ⟨-, rfl⟩ | ⟨-, hd⟩ := Probe.of_getElem?_set hd
    · exact hok
    · exact ha.ok d buf₁ hd
  own := ha.own
  spare d hd := by
    rw [List.length_set]
    exact ha.spare d hd
  holds c' d hc' := by
    obtain ⟨buf₁, hget₁, hcont₁⟩ := ha.holds c' d hc'
    rw [appended_snoc]
    by_cases heq : c' = c
    · subst heq
      obtain rfl : b = d := by
        rw [hc] at hc'
        cases hc'
        rfl
      obtain rfl : buf = buf₁ := Option.some.inj (hget.symm.trans hget₁)
      refine ⟨buf', List.getElem?_set_self (List.getElem?_eq_some_iff.mp hget).1, ?_⟩
      rw [hcont, hcont₁]
    · have hne : b ≠ d := by
        rintro rfl
        exact heq (ha.own c' c b hc' hc)
      refine ⟨buf₁, by rw [List.getElem?_set_ne hne, hget₁], ?_⟩
      rw [hothers c' heq, List.append_nil, hcont₁]
  later c' hc' := by
    have hlt : c < w.calls.length := (List.getElem?_eq_some_iff.mp hc).1
    have hne : c' ≠ c := Nat.ne_of_gt (Nat.lt_of_lt_of_le hlt hc')
    rw [appended_snoc, ha.later c' hc', hothers c' hne]
    rfl

end Apart

theorem apart_init : Apart World.init [] where
  ok b buf hb := by cases hb
  own c c' b hc := by cases hc
  spare b hb := by cases hb
  holds c b hc := by cases hc
  later c _ := rfl

/-! ## Steps -/

/-- `$builder_take` gives an empty builder that no call has. -/
theorem builderTake_spec (ha : Apart w hist) :
    ∃ b w' buf, w.builderTake = .ok (b, w') ∧ Apart w' hist ∧ w'.calls = w.calls ∧ w'.scratch = none ∧
      w'.heap[b]? = some buf ∧ buf.contents = [] ∧ ∀ c : ℕ, w'.calls[c]? ≠ some (.running b) := by
  unfold World.builderTake
  cases hs : w.scratch with
  | none =>
    refine ⟨_, _, Buf.new, rfl, ha.grown, rfl, hs, ?_, rfl, ?_⟩
    · change (w.heap ++ [Buf.new])[w.heap.length]? = some Buf.new
      simp
    · exact ha.not_beyond (Nat.le_refl _)
  | some b =>
    obtain ⟨hlt, hfree⟩ := ha.spare b hs
    have hget : w.heap[b]? = some w.heap[b] := List.getElem?_eq_getElem hlt
    refine ⟨b, _, { w.heap[b] with len := 0 }, ?_, ha.emptied hs hget, rfl, rfl, List.getElem?_set_self hlt, rfl, hfree⟩
    dsimp only
    rw [hget, orTrap, ok_bind]

/-- What `$builder_append` has done when it returns. -/
theorem append_done {src : List UInt8} {start n : ℕ} {buf' : Buf} (hok : buf.Ok) (hn : n < 2^32)
    (h : buf.append src start n = .ok buf') :
    buf'.Ok ∧ buf'.contents = buf.contents ++ if 0 < s32 n then (src.drop start).take n else [] := by
  by_cases hpos : 0 < s32 n
  · have hlt : n < 2^31 := by
      unfold s32 at hpos
      split_ifs at hpos <;> omega
    rw [if_pos hpos]
    by_cases hsrc : start + n ≤ src.length
    · have hspec := Buf.append_spec hok hsrc hlt
      split_ifs at hspec
      · obtain ⟨b₁, hrun, hok₁, hcont₁⟩ := hspec
        rw [h] at hrun
        cases hrun
        exact ⟨hok₁, hcont₁⟩
      · rw [h] at hspec
        cases hspec
    · rw [Buf.append_outside hok hsrc hlt (by rintro rfl; exact absurd hpos (by decide))] at h
      cases h
  · unfold Buf.append at h
    rw [if_pos (not_lt.mp hpos)] at h
    cases h
    rw [if_neg hpos, List.append_nil]
    exact ⟨hok, rfl⟩

/-- What `$builder_append_byte` has done when it returns. -/
theorem appendByte_done {byte : UInt8} {buf' : Buf} (hok : buf.Ok) (h : buf.appendByte byte = .ok buf') :
    buf'.Ok ∧ buf'.contents = buf.contents ++ [byte] := by
  have hspec := Buf.appendByte_spec hok byte
  split_ifs at hspec
  · obtain ⟨b₁, hrun, hok₁, hcont₁⟩ := hspec
    rw [h] at hrun
    cases hrun
    exact ⟨hok₁, hcont₁⟩
  · rw [h] at hspec
    cases hspec

theorem change_done {f : Buf → Except Fault Buf} (h : w.change b f = .ok w') :
    ∃ buf buf', w.heap[b]? = some buf ∧ f buf = .ok buf' ∧ w' = { w with heap := w.heap.set b buf' } := by
  obtain ⟨buf, hget, h⟩ := of_bind_ok h
  obtain ⟨buf', hf, h⟩ := of_bind_ok h
  refine ⟨buf, buf', ?_, hf, (Except.ok.inj h).symm⟩
  cases hg : w.heap[b]? with
  | none =>
    rw [hg] at hget
    cases hget
  | some buf₁ =>
    rw [hg] at hget
    rw [Except.ok.inj hget]

/-- `$builder_finish` gives what the call has appended. -/
theorem builderFinish_spec (ha : Apart w hist) (hc : w.calls[c]? = some (.running b)) :
    w.builderFinish b = .ok (appended hist c) := by
  obtain ⟨buf, hget, hcont⟩ := ha.holds c b hc
  unfold World.builderFinish
  rw [hget, orTrap, ok_bind, Buf.finish_spec (ha.ok b buf hget), hcont]

/-- `$builder_put` at the end of the call that has the builder. -/
theorem builderPut_spec (ha : Apart w hist) (hc : w.calls[c]? = some (.running b)) :
    ∃ w', w.builderPut b = .ok w' ∧ w'.heap = w.heap ∧ Apart (w'.leave c) hist := by
  obtain ⟨buf, hget, -⟩ := ha.holds c b hc
  have hfree : ∀ c' : ℕ, (w.leave c).calls[c']? ≠ some (.running b) := by
    intro c' hc'
    obtain ⟨hne, hc'⟩ := running_leave hc'
    exact hne (ha.own c' c b hc' hc)
  unfold World.builderPut
  rw [hget, orTrap, ok_bind]
  split_ifs
  · exact ⟨_, rfl, rfl, (ha.leave c).putBack (List.getElem?_eq_some_iff.mp hget).1 hfree⟩
  · exact ⟨_, rfl, rfl, ha.leave c⟩

/-- `$builder_give` gives what the call has appended. -/
theorem builderGive_spec (ha : Apart w hist) (hc : w.calls[c]? = some (.running b)) :
    ∃ w', w.builderGive b = .ok (w', appended hist c) ∧ Apart (w'.leave c) hist := by
  obtain ⟨w', hput, hheap, ha'⟩ := builderPut_spec ha hc
  refine ⟨w', ?_, ha'⟩
  have hfinish : w'.builderFinish b = .ok (appended hist c) := by
    rw [← builderFinish_spec ha hc]
    unfold World.builderFinish
    rw [hheap]
  unfold World.builderGive
  rw [hput, ok_bind, hfinish, ok_bind]

/-- What an operation gives: the bytes that its call has appended, when it ends with them. -/
def Op.result (hist : List (Op × Option (List UInt8))) : Op → Option (List UInt8)
  | .give c => some (appended hist c)
  | .finish c => some (appended hist c)
  | _ => none

/-- One operation keeps the builders apart, and gives what its call has appended. -/
theorem step_apart (ha : Apart w hist) (hs : w.step op = .ok (w', r)) :
    Apart w' (hist ++ [(op, r)]) ∧ r = op.result hist := by
  cases op with
  | take =>
    obtain ⟨b, w₁, buf, htake, ha₁, hcalls, hscratch, hget, hempty, hfree⟩ := builderTake_spec ha
    unfold World.step at hs
    rw [htake] at hs
    cases hs
    exact ⟨(ha₁.enter hget hempty hfree (by rw [hscratch]; nofun)).quiet fun _ => rfl, rfl⟩
  | new =>
    cases hs
    have hget : (w.heap ++ [Buf.new])[w.heap.length]? = some Buf.new := by simp
    -- a new builder is not the spare one
    have hnot : w.scratch ≠ some w.heap.length := fun hb => Nat.lt_irrefl _ (ha.spare _ hb).1
    exact ⟨(ha.grown.enter hget rfl (ha.not_beyond (Nat.le_refl _)) hnot).quiet fun _ => rfl, rfl⟩
  | append c src start n =>
    obtain ⟨b, hb, hs⟩ := of_bind_ok hs
    obtain ⟨w₁, hchange, hs⟩ := of_bind_ok hs
    cases hs
    obtain ⟨buf, buf', hget, happend, rfl⟩ := change_done hchange
    obtain ⟨hok, hcont⟩ := append_done (ha.ok b buf hget) n.toNat_lt happend
    refine ⟨ha.wrote (builderOf_eq hb) hget hok ?_ ?_, rfl⟩
    -- the call has appended these bytes, and no other call has
    · rw [hcont]
      simp [Op.bytes]
    · intro c' hne
      exact if_neg fun h => hne h.1.symm
  | appendByte c byte =>
    obtain ⟨b, hb, hs⟩ := of_bind_ok hs
    obtain ⟨w₁, hchange, hs⟩ := of_bind_ok hs
    cases hs
    obtain ⟨buf, buf', hget, happend, rfl⟩ := change_done hchange
    obtain ⟨hok, hcont⟩ := appendByte_done (ha.ok b buf hget) happend
    refine ⟨ha.wrote (builderOf_eq hb) hget hok ?_ ?_, rfl⟩
    · rw [hcont]
      simp [Op.bytes]
    · intro c' hne
      exact if_neg (Ne.symm hne)
  | give c =>
    obtain ⟨b, hb, hs⟩ := of_bind_ok hs
    obtain ⟨w₁, hgive, ha₁⟩ := builderGive_spec ha (builderOf_eq hb)
    rw [hgive] at hs
    cases hs
    exact ⟨ha₁.quiet fun _ => rfl, rfl⟩
  | finish c =>
    obtain ⟨b, hb, hs⟩ := of_bind_ok hs
    rw [builderFinish_spec ha (builderOf_eq hb)] at hs
    cases hs
    exact ⟨(ha.leave c).quiet fun _ => rfl, rfl⟩
  | put c =>
    obtain ⟨b, hb, hs⟩ := of_bind_ok hs
    obtain ⟨w₁, hput, -, ha₁⟩ := builderPut_spec ha (builderOf_eq hb)
    rw [hput] at hs
    cases hs
    exact ⟨ha₁.quiet fun _ => rfl, rfl⟩
  | raise c =>
    obtain ⟨b, hb, hs⟩ := of_bind_ok hs
    cases hs
    exact ⟨(ha.leave c).quiet fun _ => rfl, rfl⟩

theorem Run.apart (hrun : Run w hist) : Apart w hist := by
  induction hrun with
  | init => exact apart_init
  | step _ hs ih => exact (step_apart ih hs).1

/-- Every string of a run is what its call had appended by then. -/
theorem Run.results (hrun : Run w hist) :
    ∀ pre op r post, hist = pre ++ (op, r) :: post → r = Op.result pre op := by
  induction hrun with
  | init =>
    intro pre op r post h
    exact absurd h.symm (by simp)
  | @step w₁ w₂ hist₁ op₁ r₁ hrun hs ih =>
    intro pre op r post h
    rcases List.eq_nil_or_concat post with rfl | ⟨post', last, rfl⟩
    · -- the last operation
      obtain rfl : hist₁ = pre := List.append_inj_left' h rfl
      obtain ⟨rfl, rfl⟩ : op₁ = op ∧ r₁ = r := by simpa using List.append_inj_right' h rfl
      exact (step_apart hrun.apart hs).2
    · rw [List.concat_eq_append, ← List.cons_append, ← List.append_assoc] at h
      exact ih pre op r post' (List.append_inj_left' h rfl)

/-- Whatever calls do with their builders, in whatever order and however they are nested, and whichever of them an
error leaves: two calls in progress have different builders, neither of them the one to be taken next; every string
that a call has given is exactly what it had appended itself; and a call in progress would give just that. -/
theorem calls_keep_apart (w : World) (hist : List (Op × Option (List UInt8))) (hrun : Run w hist) :
    (∀ c c' b : ℕ, w.calls[c]? = some (.running b) → w.calls[c']? = some (.running b) → c = c') ∧
      (∀ c b : ℕ, w.calls[c]? = some (.running b) → w.scratch ≠ some b) ∧
      (∀ pre c r post, hist = pre ++ (Op.give c, r) :: post ∨ hist = pre ++ (Op.finish c, r) :: post →
        r = some (appended pre c)) ∧
      ∀ c b : ℕ, w.calls[c]? = some (.running b) → ∃ w', w.step (.give c) = .ok (w', some (appended hist c)) := by
  have ha := hrun.apart
  refine ⟨ha.own, ?_, ?_, ?_⟩
  · intro c b hc hs
    exact (ha.spare b hs).2 c hc
  · rintro pre c r post (h | h)
    · exact hrun.results pre _ r post h
    · exact hrun.results pre _ r post h
  · intro c b hc
    obtain ⟨w', hgive, -⟩ := builderGive_spec ha hc
    refine ⟨w'.leave c, ?_⟩
    have hb : w.builderOf c = .ok b := by
      unfold World.builderOf
      rw [hc]
    calc w.step (.give c) = (w.builderOf c >>= fun b => w.builderGive b >>= fun p => .ok (p.1.leave c, some p.2)) := rfl
      _ = .ok (w'.leave c, some (appended hist c)) := by rw [hb, ok_bind, hgive, ok_bind]

/-- Operations one after the other, up to a trap. -/
def World.perform (w : World) : List Op → World × List (Op × Option (List UInt8))
  | [] => (w, [])
  | op :: ops =>
    match w.step op with
    | .ok (w', r) => ((w'.perform ops).1, (op, r) :: (w'.perform ops).2)
    | .error _ => (w, [])

theorem Run.perform (hrun : Run w hist) (ops : List Op) : Run (w.perform ops).1 (hist ++ (w.perform ops).2) := by
  induction ops generalizing w hist with
  | nil =>
    rw [World.perform, List.append_nil]
    exact hrun
  | cons op ops ih =>
    unfold World.perform
    split
    · rename_i w' r hs
      have hrest := ih (hrun.step hs)
      rw [List.append_assoc] at hrest
      exact hrest
    · rw [List.append_nil]
      exact hrun

/-- A call with two calls in it: one returns, and an error leaves the other. -/
def nestedCalls : List Op :=
  [.take, .append 0 [97, 98] 0 2, .take, .appendByte 1 99, .give 1, .take, .appendByte 2 120, .raise 2,
    .appendByte 0 100]

theorem calls_keep_apart_nestedCalls :
    ∃ w', (World.init.perform nestedCalls).1.step (.give 0) = .ok (w', some [97, 98, 100]) :=
  (calls_keep_apart _ _ (Run.init.perform nestedCalls)).2.2.2 0 0 (by decide)

end Lua2wasm.Format
