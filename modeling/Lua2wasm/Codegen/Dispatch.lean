import Lua2wasm.Codegen.LexInv

/-!
# Blocks and their dispatch

A block with labels is emitted as segments behind a branch table, inside a loop that every goto to
one of its labels enters again. `SegsOk` says what is proved of the segments, one by one, and
`dispatchCode_triple` that the table puts them together. A block without labels is its single
segment.
-/

namespace Lua2wasm

open Structured Fallible

variable {σ : Type} {m : Machine Placed ℕ σ} {cap : ℕ} {I : LexInv m cap}
variable {Q : Outcome WatLabel → σ → Prop} {labs : List LabelInfo} {segs : List (List WatCode)}

/-- The segments of a block: the first begins where `P` holds, each other one at its label, and each
falls through into the next label, the last one into `E`. -/
def SegsOk (I : LexInv m cap) (Q : Outcome WatLabel → σ → Prop) (E : σ → Prop) :
    (σ → Prop) → List LabelInfo → List (List WatCode) → Prop
  | P, [], [seg] => Triple m P seg (onNext E Q)
  | P, lab :: labs, seg :: segs =>
    Triple m P seg (onNext (I.atLabel lab) Q) ∧ SegsOk I Q E (I.atLabel lab) labs segs
  | _, _, _ => False

/-- There is one segment more than there are labels. -/
theorem SegsOk.length {E : σ → Prop} {P : σ → Prop} (h : SegsOk I Q E P labs segs) :
    segs.length = labs.length + 1 := by
  induction labs generalizing P segs with
  | nil =>
    match segs, h with
    | [seg], _ => rfl
  | cons lab labs ih =>
    match segs, h with
    | seg :: segs, h => simp [ih h.2]

/-- The only segment of a block without labels. -/
theorem SegsOk.flatten {E P : σ → Prop} (h : SegsOk I Q E P [] segs) : Triple m P segs.flatten (onNext E Q) := by
  match segs, h with
  | [seg], h =>
    rw [List.flatten_singleton]
    exact h

/-- What is known when the code inside the block of segment `k` branches: it goes to a later
segment, where that segment's precondition holds, or to the block's end, or it leaves the block. -/
def segmentPost (Q : Outcome WatLabel → σ → Prop) (E : σ → Prop) (bid k : ℕ)
    (Ps : List (σ → Prop)) (o : Outcome WatLabel) (s : σ) : Prop :=
  (∃ i P, Ps[i]? = some P ∧ o = .br (.seg bid (k + i)) ∧ P s) ∨
    (o = .br (.exit bid) ∧ E s) ∨ Q o s

/-- A postcondition that speaks of no branch into a dispatch. -/
structure Outward (Q : Outcome WatLabel → σ → Prop) : Prop where
  next : ∀ s, ¬ Q .next s
  seg : ∀ bid k s, ¬ Q (.br (.seg bid k)) s

theorem LexInv.exits_outward (I : LexInv m cap) (breaks : List BreakTarget)
    (labels : List (List LabelInfo)) : Outward (I.exits breaks labels) :=
  ⟨fun _ h => h, fun _ _ _ h => h⟩

/-- The block of segment `k`, closed: the branches to `k` fall through. -/
theorem segment_block {E D P : σ → Prop} {bid k : ℕ}
    {Ps : List (σ → Prop)} {inner : List WatCode} (hQ : Outward Q)
    (h : Triple m D inner (segmentPost Q E bid k (P :: Ps))) :
    TripleOne m D (.block (.seg bid k) inner) (onNext P (segmentPost Q E bid (k + 1) Ps)) := by
  refine TripleOne.block (h.post ?_)
  rintro o s (⟨i, P', hi, rfl, hs⟩ | ⟨rfl, hs⟩ | hs)
  · cases i with
    | zero =>
      obtain rfl : P = P' := by simpa using hi
      simpa [Outcome.leave, onNext] using hs
    | succ i =>
      have hne : k + (i + 1) ≠ k := by omega
      simp only [Outcome.leave, WatLabel.seg.injEq, true_and, hne, if_false, onNext, reduceCtorEq]
      exact .inl ⟨i, P', by simpa using hi, by rw [Nat.add_comm i 1, Nat.add_assoc], hs⟩
  · simpa [Outcome.leave, onNext] using .inr (.inl ⟨rfl, hs⟩)
  · -- Any other way of leaving is not this block's branch, so it passes through.
    cases o with
    | next => exact absurd hs (hQ.next s)
    | br l =>
      have hl : l ≠ .seg bid k := fun hl => hQ.seg bid k s (hl ▸ hs)
      simpa [Outcome.leave, onNext, hl] using .inr (.inr hs)
    | _ => simpa [Outcome.leave, onNext] using .inr (.inr hs)

theorem LexInv.Fits.segmentPost (hQ : I.Fits Q) (E : σ → Prop)
    (bid k : ℕ) (Ps : List (σ → Prop)) : I.Fits (segmentPost Q E bid k Ps) :=
  ⟨fun s hs => .inr (.inr (hQ.err s hs)), fun s hs => .inr (.inr (hQ.stop s hs))⟩

/-- The end of a segment falls through to the next label by the dispatch. -/
theorem setNext_atLabel {env : EmitEnv} {lab : LabelInfo} {bid k : ℕ} {s : σ}
    (hs : I.atLabel lab s) :
    Ends (fun s' => m.index bid s' = k ∧ I.atLabel lab s') I.failed I.paused
      (m.op ⟨env.scope, .setNext bid k⟩ s) := by
  unfold LexInv.atLabel at hs ⊢
  by_cases hb : lab.endsBlock
  · simp only [hb, if_true] at hs ⊢
    exact I.setNext_leaving hs
  · simp only [hb, Bool.false_eq_true, if_false] at hs ⊢
    exact I.setNext_holds hs

/-- The labels `labs` of a block have the segments from `k` on, in the dispatch block `bid`. -/
def Numbered (bid : ℕ) : ℕ → List LabelInfo → Prop
  | _, [] => True
  | k, lab :: labs => lab.blockDispatchId = bid ∧ lab.segmentIdx = k ∧ Numbered bid (k + 1) labs

/-- The segments from `k` on, around the branch table: `D` holds whenever the table is entered. A
branch to the dispatch is understood as `Q` says, which must allow it at each label. -/
theorem segmentCode_triple {env : EmitEnv} {E D : σ → Prop}
    {bid : ℕ} (hQ : Outward Q) (hf : I.Fits Q) (hD : ∀ s, D s → I.paused s)
    (hE : ∀ s, E s → I.paused s) (labs : List LabelInfo) (P : σ → Prop) (k : ℕ)
    (inner : List WatCode) (segs : List (List WatCode))
    (hlabs : ∀ lab ∈ labs, ∀ s, m.index bid s = lab.segmentIdx → I.atLabel lab s → Q (.br (.dispatch bid)) s)
    (hnum : Numbered bid (k + 1) labs) (hsegs : SegsOk I Q E P labs segs)
    (hinner : Triple m D inner (segmentPost Q E bid k (P :: labs.map I.atLabel))) :
    Triple m D (segmentCode env bid k inner segs) (fun o s => (o = .br (.exit bid) ∧ E s) ∨ Q o s) := by
  induction labs generalizing P k inner segs with
  | nil =>
    cases segs with
    | nil => exact absurd hsegs.length (by simp)
    | cons body segs =>
      obtain rfl : segs = [] := List.eq_nil_of_length_eq_zero (by simpa using hsegs.length)
      have hbody := hsegs
      simp only [segmentCode, List.cons_append]
      have hstop : ∀ s, D s → (Outcome.stop (L := WatLabel) = .br (.exit bid) ∧ E s) ∨ Q .stop s :=
        fun s hs => .inr (hf.stop s (hD s hs))
      refine Triple.cons hstop ((segment_block hQ hinner).conseq (fun _ hs => hs)
        fun o s => onNext_mono (fun _ hs => hs) ?_) ?_
      · intro o s ho
        simpa [segmentPost] using ho
      · refine Triple.append (R := E)
          (Triple.post hbody fun o s => onNext_mono (fun _ hs => hs) fun _ _ => .inr) ?_
        exact Triple.br_last (fun s hs => .inr (hf.stop s (hE s hs))) fun s hs => .inl ⟨rfl, hs⟩
  | cons lab labs ih =>
    have h := hsegs
    obtain _ | ⟨body, _ | ⟨next, segs⟩⟩ := segs
    · exact absurd h.length (by simp)
    · exact absurd h.length (by simp)
    · obtain ⟨hbid, hidx, hnum⟩ := hnum
      simp only [segmentCode]
      refine ih (I.atLabel lab) (k + 1) _ (next :: segs)
        (fun lab' hl => hlabs lab' (by simp [hl])) hnum h.2 ?_
      simp only [List.cons_append]
      have hfit := LexInv.Fits.segmentPost hf E bid (k + 1) (I.atLabel lab :: labs.map I.atLabel)
      refine Triple.cons (fun s hs => hfit.stop s (hD s hs)) (segment_block hQ hinner) ?_
      refine Triple.append
        (h.1.post fun o s => onNext_mono (fun _ hs => hs) fun _ _ ho => .inr (.inr ho)) ?_
      · refine op_cons hfit (fun _ => I.paused_atLabel) (fun _ => setNext_atLabel) ?_
        refine Triple.br_last (fun s hs => hfit.stop s (I.paused_atLabel hs.2)) ?_
        exact fun s hs => .inr (.inr (hlabs lab (by simp) s (by rw [hs.1, hidx]) hs.2))

/-- The label at an index, by its number. -/
theorem Numbered.getElem? {bid k : ℕ} (h : Numbered bid k labs) {lab : LabelInfo} (hlab : lab ∈ labs) :
    lab.blockDispatchId = bid ∧ ∃ i, labs[i]? = some lab ∧ lab.segmentIdx = k + i := by
  induction labs generalizing k with
  | nil => simp at hlab
  | cons l labs ih =>
    rcases List.mem_cons.mp hlab with rfl | hmem
    · exact ⟨h.1, 0, rfl, h.2.1⟩
    · obtain ⟨hb, i, hi, hk⟩ := ih h.2.2 hmem
      exact ⟨hb, i + 1, by simpa using hi, by omega⟩

/-- The dispatch of a block with the labels `labs`: it begins with the first segment, every goto to
one of the labels begins again with the label's segment, and the other exits are those of the
environment outside the block. -/
theorem dispatchCode_triple {env : EmitEnv} {breaks : List BreakTarget}
    {labels : List (List LabelInfo)} {E : σ → Prop} {bid : ℕ} (hE : ∀ s, E s → I.paused s) (hnum : Numbered bid 1 labs)
    (hout : ∀ labs' ∈ labels, ∀ lab ∈ labs', lab.blockDispatchId ≠ bid)
    (hsegs : SegsOk I (I.exits breaks (labs :: labels)) E (I.holds env.scope) labs segs) :
    Triple m (I.holds env.scope) (dispatchCode env bid segs) (onNext E (I.exits breaks labels)) := by
  -- The invariant of the dispatch loop: the index names a segment whose precondition holds.
  let D : σ → Prop := fun s => ∃ i P,
    (I.holds env.scope :: labs.map I.atLabel)[i]? = some P ∧ m.index bid s = i ∧ P s
  have hD : ∀ s, D s → I.paused s := by
    rintro s ⟨i, P, hP, -, hs⟩
    cases i with
    | zero =>
      obtain rfl : I.holds env.scope = P := by simpa using hP
      exact I.paused_holds hs
    | succ i =>
      obtain ⟨lab, -, rfl⟩ : ∃ lab, labs[i]? = some lab ∧ I.atLabel lab = P := by simpa using hP
      exact I.paused_atLabel hs
  have hatD : ∀ lab ∈ labs, ∀ s, m.index bid s = lab.segmentIdx → I.atLabel lab s → D s := by
    intro lab hlab s hidx hs
    obtain ⟨-, i, hi, hk⟩ := hnum.getElem? hlab
    exact ⟨i + 1, I.atLabel lab, by simp [hi], by omega, hs⟩
  have hf := I.exits_fits breaks labels
  have hf' := I.exits_fits breaks (labs :: labels)
  refine op_cons (R := D) (hf.onNext E) (fun _ => I.paused_holds) ?_ ?_
  · intro s hs
    have : Ends (fun s' => m.index bid s' = 0 ∧ I.holds env.scope s') I.failed I.paused
        (m.op ⟨env.scope, .setNext bid 0⟩ s) := I.setNext_holds hs
    unfold Ends at this ⊢
    cases hsig : (m.op ⟨env.scope, .setNext bid 0⟩ s).1 <;> simp only [hsig] at this ⊢
    · exact ⟨0, I.holds env.scope, rfl, this.1, this.2⟩
    · exact this
    · exact this
  · refine Triple.singleton (fun s hs => (hf.onNext E).stop s (hD s hs))
      (TripleOne.block_join (Triple.loop_last ?_ ?_))
    · exact fun s hs => ((hf.onBr _ _).onNext E).stop s (hD s hs)
    · refine (segmentCode_triple (I.exits_outward _ _) hf' hD hE labs (I.holds env.scope) 0 _ segs
        ?_ hnum hsegs ?_).post ?_
      · intro lab hlab s hidx hs
        exact ⟨labs, by simp, lab, hlab, (hnum.getElem? hlab).1, hidx, hs⟩
      · refine Triple.singleton (fun s hs => .inr (.inr (hf'.stop s (hD s hs))))
          (TripleOne.brTable ?_)
        rintro s ⟨i, P, hP, hi, hs⟩
        have hlt : i < segs.length := by
          obtain ⟨h, -⟩ := List.getElem?_eq_some_iff.mp hP
          rw [hsegs.length]
          simpa using h
        refine .inl ⟨i, P, hP, ?_, hs⟩
        simp [hi, List.getD, hlt]
      · rintro o s (⟨rfl, hs⟩ | hs)
        · simpa [onBr, onNext] using hs
        · cases o with
          | next => exact absurd hs id
          | br l =>
            cases l with
            | dispatch b =>
              obtain ⟨labs', hl, lab, hlab, hb, hidx, hs⟩ := hs
              rcases List.mem_cons.mp hl with rfl | hl
              · -- One of this block's labels: the loop goes round.
                obtain rfl : bid = b := (hnum.getElem? hlab).1.symm.trans hb
                simpa [onBr] using hatD lab hlab s hidx hs
              · have hne : b ≠ bid := fun he => hout labs' hl lab hlab (hb.trans he)
                simpa [onBr, onNext, hne, LexInv.exits] using ⟨labs', hl, lab, hlab, hb, hidx, hs⟩
            | brk n => simpa [onBr, onNext, LexInv.exits] using hs
            | _ => exact absurd hs id
          | trap => exact absurd hs id
          | _ => simpa [onBr, onNext, LexInv.exits] using hs

end Lua2wasm
