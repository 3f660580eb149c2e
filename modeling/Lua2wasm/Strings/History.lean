import Lua2wasm.Strings.Append

/-!
# Strings never change

`lazy_strings_keep_bytes` is about whole histories: whatever calls a program makes on its strings, in
whatever order, there is one assignment of bytes to strings that explains every result of the history. A
concatenation gave a string with the bytes of its operands, and every read, before or after, gave the
bytes, the length, the comparison or the hash that goes with them. No call traps, and the only error is
`too large`.
-/

namespace Lua2wasm.Strings

open Raising
open Table (Fault strHash)

/-- The bytes of an operand, when the strings have the bytes `val`. -/
def Operand.plain (host : HostFmt) (val : ℕ → List UInt8) : Operand → List UInt8
  | .str s => val s
  | .int v => decimal v.toInt
  | .float f => host.bytes f

/-- The plain concatenation of operands. -/
def plainConcat (host : HostFmt) (val : ℕ → List UInt8) (vs : List Operand) : List UInt8 :=
  (vs.map (Operand.plain host val)).flatten

/-- The outcome of a concatenation: a string with the bytes, or an error as they are too many. -/
def ConcatOk (val : ℕ → List UInt8) (x : List UInt8) : Except Fault StrResult → Prop
  | .ok (.str s) => val s = x
  | .error e => e = .raised "too large" ∧ 2^31 ≤ x.length
  | _ => False

/-- What a call gave is what it gives on strings with the bytes `val`. -/
def Explains (host : HostFmt) (val : ℕ → List UInt8) : StrOp → Except Fault StrResult → Prop
  | .make x _, .ok (.str s) => val s = x
  | .ofBytes x _, .ok (.str s) => val s = x
  | .concat a b, r => ConcatOk val (plainConcat host val [a, b]) r
  | .concat3 a b c, r => ConcatOk val (plainConcat host val [a, b, c]) r
  | .concat4 a b c d, r => ConcatOk val (plainConcat host val [a, b, c, d]) r
  | .bytes s, .ok (.bytes x) => x = val s
  | .length s, .ok (.length n) => n = (val s).length
  | .eq s t, .ok (.eq b) => b = decide (val s = val t)
  | .hash s, .ok (.hash k) => k = strHash (val s)
  | _, _ => False

variable {host : HostFmt} {h h' : StrHeap} {vals vals' : List (List UInt8)} {op : StrOp}
  {r : Except Fault StrResult} {hist : List (StrOp × Except Fault StrResult)}

/-- The bytes of the strings, as a function. -/
def valOf (vals : List (List UInt8)) (s : ℕ) : List UInt8 := vals.getD s []

theorem valOf_eq {s : ℕ} {x : List UInt8} (hx : vals[s]? = some x) : valOf vals s = x := by
  unfold valOf
  rw [List.getD_eq_getElem?_getD, hx]
  rfl

theorem valOf_of_initial {s : ℕ} (hp : vals <+: vals') (hs : s < vals.length) : valOf vals' s = valOf vals s := by
  have hx : vals[s]? = some vals[s] := List.getElem?_eq_getElem hs
  rw [valOf_eq hx, valOf_eq (getElem?_of_initial hp hx)]

theorem Operand.Live.text {v : Operand} (hh : Holds h vals) (hl : v.Live h) :
    v.text host vals = some (v.plain host (valOf vals)) := by
  cases v with
  | str s =>
    obtain ⟨x, hx⟩ := hh.val hl
    change vals[s]? = some (valOf vals s)
    rw [valOf_eq hx, hx]
  | int v => rfl
  | float f => rfl

theorem Operand.Live.plain_of_initial {v : Operand} (hh : Holds h vals) (hl : v.Live h) (hp : vals <+: vals') :
    v.plain host (valOf vals') = v.plain host (valOf vals) := by
  cases v with
  | str s => exact valOf_of_initial hp (by rw [hh.length]; exact hl)
  | int v => rfl
  | float f => rfl

/-- The strings that the call uses, and the one that it gives, are there. -/
def Settled (h : StrHeap) (op : StrOp) (r : Except Fault StrResult) : Prop :=
  op.Legal h ∧ ∀ s, r = .ok (.str s) → s < h.strs.length

/-- What a call gave stays explained when strings are added. -/
theorem Explains.of_initial (hh : Holds h vals) (hs : Settled h op r) (hp : vals <+: vals')
    (he : Explains host (valOf vals) op r) : Explains host (valOf vals') op r := by
  obtain ⟨hl, hr⟩ := hs
  have hval : ∀ s, s < h.strs.length → valOf vals' s = valOf vals s := fun s hs =>
    valOf_of_initial hp (by rw [hh.length]; exact hs)
  have hconcat : ∀ vs : List Operand, (∀ v ∈ vs, v.Live h) → ConcatOk (valOf vals) (plainConcat host (valOf vals) vs) r →
      ConcatOk (valOf vals') (plainConcat host (valOf vals') vs) r := by
    intro vs hvs hc
    have heq : plainConcat host (valOf vals') vs = plainConcat host (valOf vals) vs := by
      unfold plainConcat
      congr 1
      exact List.map_congr_left fun v hv => (hvs v hv).plain_of_initial hh hp
    rw [heq]
    match r, hc with
    | .ok (.str s), hc =>
      change valOf vals' s = _
      rw [hval s (hr s rfl)]
      exact hc
    | .error e, hc => exact hc
  match op, r, he with
  | .make x hashed, .ok (.str s), he =>
    change valOf vals' s = x
    rw [hval s (hr s rfl)]
    exact he
  | .ofBytes x kind, .ok (.str s), he =>
    change valOf vals' s = x
    rw [hval s (hr s rfl)]
    exact he
  | .concat a b, r, he => exact hconcat _ (by simpa [StrOp.Legal] using hl) he
  | .concat3 a b c, r, he => exact hconcat _ (by simpa [StrOp.Legal] using hl) he
  | .concat4 a b c d, r, he => exact hconcat _ (by simpa [StrOp.Legal] using hl) he
  | .bytes s, .ok (.bytes x), he =>
    change x = valOf vals' s
    rw [hval s hl]
    exact he
  | .length s, .ok (.length n), he =>
    change n = (valOf vals' s).length
    rw [hval s hl]
    exact he
  | .eq s t, .ok (.eq b), he =>
    change b = decide (valOf vals' s = valOf vals' t)
    rw [hval s hl.1, hval t hl.2]
    exact he
  | .hash s, .ok (.hash k), he =>
    change k = strHash (valOf vals' s)
    rw [hval s hl]
    exact he

theorem Operand.Live.mono {v : Operand} (hle : h.strs.length ≤ h'.strs.length) (hl : v.Live h) : v.Live h' := by
  cases v with
  | str s => exact Nat.lt_of_lt_of_le hl hle
  | int v => trivial
  | float f => trivial

/-- A call stays legal when strings are added. -/
theorem StrOp.Legal.mono (hle : h.strs.length ≤ h'.strs.length) (hl : op.Legal h) : op.Legal h' := by
  cases op with
  | make x hashed => exact hl
  | ofBytes x kind => exact hl
  | concat a b => exact ⟨hl.1.mono hle, hl.2.mono hle⟩
  | concat3 a b c => exact ⟨hl.1.mono hle, hl.2.1.mono hle, hl.2.2.mono hle⟩
  | concat4 a b c d => exact ⟨hl.1.mono hle, hl.2.1.mono hle, hl.2.2.1.mono hle, hl.2.2.2.mono hle⟩
  | bytes s => exact Nat.lt_of_lt_of_le hl hle
  | length s => exact Nat.lt_of_lt_of_le hl hle
  | eq s t => exact ⟨Nat.lt_of_lt_of_le hl.1 hle, Nat.lt_of_lt_of_le hl.2 hle⟩
  | hash s => exact Nat.lt_of_lt_of_le hl hle

/-- What a call leads to. -/
def Stepped (host : HostFmt) (vals : List (List UInt8)) (op : StrOp) (r : Except Fault StrResult) (h' : StrHeap) :
    Prop :=
  ∃ vals', vals <+: vals' ∧ Holds h' vals' ∧ Explains host (valOf vals') op r ∧
    ∀ s, r = .ok (.str s) → s < h'.strs.length

theorem plainConcat_of_initial {vs : List Operand} (hh : Holds h vals) (hvs : ∀ v ∈ vs, v.Live h)
    (hp : vals <+: vals') : plainConcat host (valOf vals') vs = plainConcat host (valOf vals) vs := by
  unfold plainConcat
  congr 1
  exact List.map_congr_left fun v hv => (hvs v hv).plain_of_initial hh hp

/-- A concatenation, as a call. -/
theorem concat_stepped (vs : List Operand) {m : StrM ℕ} (hh : Holds h vals) (hvs : ∀ v ∈ vs, v.Live h)
    (hop : ∀ val r, Explains host val op r ↔ ConcatOk val (plainConcat host val vs) r)
    (hm : Meets m h (Made vals (plainConcat host (valOf vals) vs))
      (TooLarge vals (plainConcat host (valOf vals) vs))) :
    Meets (StrResult.str <$> m) h (fun r h' => Stepped host vals op (.ok r) h')
      (fun e h' => Stepped host vals op (.error e) h') := by
  rw [map_eq_pure_bind]
  have hm' : Meets m h (Made vals (plainConcat host (valOf vals) vs))
      (fun e h' => Stepped host vals op (.error e) h') := hm.mono (fun _ _ hr => hr) (by
    rintro e h' ⟨he, hlen, vals', hpre, hh'⟩
    refine ⟨vals', hpre, hh', (hop _ _).mpr ⟨he, ?_⟩, ?_⟩
    · rw [plainConcat_of_initial hh hvs hpre]
      exact hlen
    · intro s hs
      cases hs)
  apply hm'.bind
  rintro s h' ⟨vals', hpre, hh', hs⟩
  refine meets_pure ⟨vals', hpre, hh', (hop _ _).mpr ?_, ?_⟩
  · rw [plainConcat_of_initial hh hvs hpre]
    exact valOf_eq hs
  · intro t ht
    cases ht
    exact hh'.lt hs

/-- A read, as a call. -/
theorem read_stepped {α : Type} {m : StrM α} {a : α} {f : α → StrResult} (hh : Holds h' vals)
    (hm : Returns m h a h') (he : Explains host (valOf vals) op (.ok (f a))) (hf : ∀ s, f a ≠ .str s) :
    Meets (f <$> m) h (fun r h' => Stepped host vals op (.ok r) h')
      (fun e h' => Stepped host vals op (.error e) h') := by
  rw [map_eq_pure_bind]
  apply hm.bind_meets
  refine meets_pure ⟨vals, List.prefix_rfl, hh, he, ?_⟩
  intro s hs
  exact absurd (Except.ok.inj hs) (hf s)

/-- A legal call does what it does on strings that never change. -/
theorem StrOp.run_spec (host : HostFmt) (hh : Holds h vals) (hl : op.Legal h) :
    Meets (op.run host) h (fun r h' => Stepped host vals op (.ok r) h')
      (fun e h' => Stepped host vals op (.error e) h') := by
  have hval : ∀ s, s < h.strs.length → vals[s]? = some (valOf vals s) := by
    intro s hs
    obtain ⟨x, hx⟩ := hh.val hs
    rw [valOf_eq hx, hx]
  -- a call that makes a string explains it by its bytes
  have hmade : ∀ {x : List UInt8} {m : StrM ℕ} {h₁ : StrHeap},
      Meets m h₁ (fun s h' => Made vals x s h' ∧ Kept h₁ h') (fun e h' => Stepped host vals op (.error e) h') →
      (∀ val s, val s = x → Explains host val op (.ok (.str s))) →
      Meets (m >>= fun s => pure (.str s)) h₁ (fun r h' => Stepped host vals op (.ok r) h')
        (fun e h' => Stepped host vals op (.error e) h') := by
    intro x m h₁ hm he
    apply hm.bind
    rintro s h' ⟨⟨vals', hpre, hh', hs⟩, -⟩
    refine meets_pure ⟨vals', hpre, hh', he _ _ (valOf_eq hs), ?_⟩
    intro t ht
    cases ht
    exact hh'.lt hs
  cases op with
  | make x hashed =>
    apply newArr_returns.bind_meets
    have hself : (h.arrs ++ [x])[h.arrs.length]? = some x := by
      simp
    apply hmade (x := x)
    · apply newStr_made _ (hh.newArr x) hself hl (hh.private_newArr x).buf
      intro hne
      split
      · rfl
      · rename_i hcold
        rw [if_neg hcold] at hne
        exact absurd rfl hne
    · exact fun _ _ heq => heq
  | ofBytes x kind =>
    apply newArr_returns.bind_meets
    have hself : (h.arrs ++ [x])[h.arrs.length]? = some x := by
      simp
    apply hmade (x := x)
    · exact strOfBytes_spec (hh.newArr x) hself (hh.private_newArr x) hl.1 hl.2
    · exact fun _ _ heq => heq
  | concat a b =>
    apply concat_stepped [a, b] hh (by simpa [StrOp.Legal] using hl) fun _ _ => Iff.rfl
    simpa [plainConcat] using luaConcat_spec hh (hl.1.text hh) (hl.2.text hh)
  | concat3 a b c =>
    apply concat_stepped [a, b, c] hh (by simpa [StrOp.Legal] using hl) fun _ _ => Iff.rfl
    simpa [plainConcat] using luaConcat3_spec hh (hl.1.text hh) (hl.2.1.text hh) (hl.2.2.text hh)
  | concat4 a b c d =>
    apply concat_stepped [a, b, c, d] hh (by simpa [StrOp.Legal] using hl) fun _ _ => Iff.rfl
    simpa [plainConcat] using
      luaConcat4_spec hh (hl.1.text hh) (hl.2.1.text hh) (hl.2.2.1.text hh) (hl.2.2.2.text hh)
  | bytes s =>
    obtain ⟨r, h', hret, hh', -, hr, -⟩ := strBytes_spec hh (hval s hl)
    apply hret.bind_meets
    apply (arrOf_returns hr).bind_meets
    refine meets_pure ⟨vals, List.prefix_rfl, hh', rfl, ?_⟩
    intro t ht
    cases ht
  | length s =>
    exact read_stepped hh (strLength_spec hh (hval s hl)) rfl fun _ ht => by cases ht
  | eq s t =>
    obtain ⟨h', hret, hh', -⟩ := strEq_spec hh (hval s hl.1) (hval t hl.2)
    exact read_stepped hh' hret rfl fun _ ht => by cases ht
  | hash s =>
    obtain ⟨h', hret, hh'⟩ := strHashOf_spec hh (hval s hl)
    exact read_stepped hh' hret rfl fun _ ht => by cases ht

/-- The history is explained by the bytes that the strings of the heap stand for. -/
def Explained (host : HostFmt) (h : StrHeap) (hist : List (StrOp × Except Fault StrResult)) : Prop :=
  ∃ vals, Holds h vals ∧ ∀ e ∈ hist, Settled h e.1 e.2 ∧ Explains host (valOf vals) e.1 e.2

/-- It stays explained with one more call, if that is. -/
theorem Explained.step (hall : Explained host h hist) (hl : op.Legal h)
    (hmeets : ∀ vals, Holds h vals → Stepped host vals op r h') : Explained host h' (hist ++ [(op, r)]) := by
  obtain ⟨vals, hh, hall⟩ := hall
  obtain ⟨vals', hpre, hh', hexp, hlive⟩ := hmeets vals hh
  have hle : h.strs.length ≤ h'.strs.length := by
    rw [← hh.length, ← hh'.length]
    exact hpre.length_le
  refine ⟨vals', hh', ?_⟩
  intro e he
  obtain hold | hnew := List.mem_append.mp he
  · obtain ⟨hsettled, hexp₀⟩ := hall e hold
    refine ⟨⟨hsettled.1.mono hle, fun s hs => Nat.lt_of_lt_of_le (hsettled.2 s hs) hle⟩, ?_⟩
    exact hexp₀.of_initial hh hsettled hpre
  · obtain rfl := List.mem_singleton.mp hnew
    exact ⟨⟨hl.mono hle, hlive⟩, hexp⟩

theorem explained_init : Explained host StrHeap.init [] :=
  ⟨[], StrHeap.holds_init, fun e he => by cases he⟩

/-- A call that is run is explained. -/
theorem StrOp.stepped (hh : Holds h vals) (hl : op.Legal h)
    (hs : ((op.run host).run h : Except Fault StrResult × StrHeap) = (r, h')) : Stepped host vals op r h' := by
  have hmeets := StrOp.run_spec host hh hl
  cases r with
  | ok r => exact hmeets.of_ok hs
  | error e => exact hmeets.of_error hs

theorem StrRun.explained (hrun : StrRun host h hist) : Explained host h hist := by
  induction hrun with
  | init => exact explained_init
  | step hrun hl hs ih => exact ih.step hl fun vals hh => StrOp.stepped hh hl hs

/-- Whatever calls a program makes on its strings, in whatever order, one assignment of bytes to strings
explains everything that the calls gave: a concatenation gave a string with the bytes of its operands one
after the other, or an error as they are too many, and a read gave what belongs to the bytes of the
string. -/
theorem lazy_strings_keep_bytes (host : HostFmt) (h : StrHeap) (hist : List (StrOp × Except Fault StrResult))
    (hrun : StrRun host h hist) : ∃ val : ℕ → List UInt8, ∀ e ∈ hist, Explains host val e.1 e.2 := by
  obtain ⟨vals, -, hall⟩ := hrun.explained
  exact ⟨valOf vals, fun e he => (hall e he).2⟩

/-- A host that prints every float as `0`. -/
def zeroHost : HostFmt where
  bytes _ := [48]
  fits _ := by decide

/-- The calls, one after the other, with what came of each. -/
def StrHeap.calls (host : HostFmt) (h : StrHeap) : List StrOp → StrHeap × List (StrOp × Except Fault StrResult)
  | [] => (h, [])
  | op :: ops =>
    match ((op.run host).run h : Except Fault StrResult × StrHeap) with
    | (r, h') => ((h'.calls host ops).1, (op, r) :: (h'.calls host ops).2)

/-- Each call is legal when it is made. -/
def StrHeap.CallsLegal (host : HostFmt) (h : StrHeap) : List StrOp → Prop
  | [] => True
  | op :: ops => op.Legal h ∧ ((op.run host).run h : Except Fault StrResult × StrHeap).2.CallsLegal host ops

instance (v : Operand) : Decidable (v.Live h) :=
  match v with
  | .str s => inferInstanceAs (Decidable (s < h.strs.length))
  | .int _ => inferInstanceAs (Decidable True)
  | .float _ => inferInstanceAs (Decidable True)

instance (op : StrOp) : Decidable (op.Legal h) :=
  match op with
  | .make x _ => inferInstanceAs (Decidable (x.length < 2^31))
  | .ofBytes x kind => inferInstanceAs (Decidable (x.length < 2^31 ∧ kind < 4))
  | .concat a b => inferInstanceAs (Decidable (a.Live h ∧ b.Live h))
  | .concat3 a b c => inferInstanceAs (Decidable (a.Live h ∧ b.Live h ∧ c.Live h))
  | .concat4 a b c d => inferInstanceAs (Decidable (a.Live h ∧ b.Live h ∧ c.Live h ∧ d.Live h))
  | .bytes s => inferInstanceAs (Decidable (s < h.strs.length))
  | .length s => inferInstanceAs (Decidable (s < h.strs.length))
  | .eq s t => inferInstanceAs (Decidable (s < h.strs.length ∧ t < h.strs.length))
  | .hash s => inferInstanceAs (Decidable (s < h.strs.length))

instance decidableCallsLegal : (h : StrHeap) → (ops : List StrOp) → Decidable (h.CallsLegal host ops)
  | _, [] => inferInstanceAs (Decidable True)
  | _, _ :: ops => @instDecidableAnd _ _ _ (decidableCallsLegal _ ops)

theorem StrRun.calls (hrun : StrRun host h hist) (ops : List StrOp) (hl : h.CallsLegal host ops) :
    StrRun host (h.calls host ops).1 (hist ++ (h.calls host ops).2) := by
  induction ops generalizing h hist with
  | nil =>
    unfold StrHeap.calls
    rw [List.append_nil]
    exact hrun
  | cons op ops ih =>
    have hnext := ih (hrun.step hl.1 rfl) hl.2
    rw [List.append_assoc] at hnext
    exact hnext

/-- A string of 127 bytes with a digit after it, that twice, and that once more: a node, a buffer and an
append to it, read from the last to the first. -/
def growing : List StrOp :=
  [.make (List.replicate 127 97) false, .concat (.str 0) (.int 7), .concat (.str 1) (.str 1),
    .concat (.str 2) (.str 1), .bytes 3, .bytes 2, .bytes 1]

theorem lazy_strings_keep_bytes_growing :
    ∃ val : ℕ → List UInt8, ∀ e ∈ (StrHeap.init.calls zeroHost growing).2, Explains zeroHost val e.1 e.2 := by
  have hlegal : StrHeap.init.CallsLegal zeroHost growing := by
    set_option maxRecDepth 20000 in
    decide
  exact lazy_strings_keep_bytes zeroHost _ _ (StrRun.init.calls growing hlegal)

end Lua2wasm.Strings
