import Mathlib

/-!
# Recursive descent

A parser over a list of tokens looks at the token at the front, takes it, fails there, or goes on with another parser.
What holds of whatever a parser accepts is built up along that (`Yields`). It assumes that a last token ends the list,
and says that the parser does not read behind it.

A parser that needs more fuel than it is given, or reads behind the last token, fails with a fault of its own.
-/

namespace Descent

/-- A parser fails, or gives a value and leaves the tokens behind. -/
abbrev Parser (τ ε α : Type) := StateT (List τ) (Except ε) α

variable {τ σ ε α β : Type}

/-! ## Primitives -/

section

variable (sym : τ → σ) (stuck : ε)

/-- The token at the front, as it is seen. -/
def peek : Parser τ ε σ
  | [] => .error stuck
  | t :: ts => .ok (sym t, t :: ts)

/-- The token at the front is taken. -/
def advance : Parser τ ε Unit
  | [] => .error stuck
  | _ :: ts => .ok ((), ts)

/-- The token at the front is taken if it is the given one. -/
def accept [DecidableEq σ] (y : σ) : Parser τ ε Bool
  | [] => .error stuck
  | t :: ts => if sym t = y then .ok (true, ts) else .ok (false, t :: ts)

/-- An error at the token at the front. -/
def failAt (err : τ → ε) : Parser τ ε α
  | [] => .error stuck
  | t :: _ => .error (err t)

/-- The token behind the one at the front, or that one if it is the last. -/
def peekSecond : Parser τ ε σ
  | [] => .error stuck
  | [t] => .ok (sym t, [t])
  | t :: u :: ts => .ok (sym u, t :: u :: ts)

/-- A loop that goes on from a value, with fuel. -/
def iterateFuel (more : Parser τ ε Bool) (body : α → Parser τ ε α) : ℕ → α → Parser τ ε α
  | 0, _ => fun _ => .error stuck
  | n + 1, a => do
    if ← more then
      let a ← body a
      iterateFuel more body n a
    else return a

/-- A loop that goes on from a value, and takes a token each time. -/
def iterate (more : Parser τ ε Bool) (body : α → Parser τ ε α) (a : α) : Parser τ ε α :=
  fun ts => iterateFuel stuck more body (ts.length + 1) a ts

/-- A loop that collects values, with fuel. -/
def manyFuel (more : Parser τ ε Bool) (item : Parser τ ε α) : ℕ → Parser τ ε (List α)
  | 0 => fun _ => .error stuck
  | n + 1 => do
    if ← more then
      let a ← item
      let as ← manyFuel more item n
      return a :: as
    else return []

/-- A loop that collects values, and takes a token each time. -/
def many (more : Parser τ ε Bool) (item : Parser τ ε α) : Parser τ ε (List α) :=
  fun ts => manyFuel stuck more item (ts.length + 1) ts

end

/-! ## What is accepted -/

section

variable (sym : τ → σ) (last : σ) (stuck : ε)

/-- The last token ends the list. -/
def Ended (ts : List τ) : Prop := ∃ us t, ts = us ++ [t] ∧ sym t = last

/-- At most so many tokens, the first of which is seen as assumed: a parser is not stuck, and when it accepts, it has
taken so many at least, and its value and the next token are as said. -/
def Yields (n d : ℕ) (H : σ → Prop) (x : Parser τ ε α) (Q : α → σ → Prop) : Prop :=
  ∀ t us, Ended sym last (t :: us) → us.length < n → H (sym t) → x (t :: us) ≠ .error stuck ∧
    ∀ a rest, x (t :: us) = .ok (a, rest) →
      ∃ t' us', rest = t' :: us' ∧ Ended sym last rest ∧ us'.length + d ≤ us.length ∧ Q a (sym t')

end

section

variable {sym : τ → σ} {last : σ} {stuck : ε} {n m d e : ℕ} {x : Parser τ ε α} {f : α → Parser τ ε β}
  {g : σ → Parser τ ε β} {h : Unit → Parser τ ε β} {c : Bool → Parser τ ε β} {a : α} {y : σ} {H H' : σ → Prop}
  {P Q : α → σ → Prop} {R : β → σ → Prop}

/-- Behind a token that is not the last one, the list goes on. -/
theorem Ended.tail {t : τ} {us : List τ} (h : Ended sym last (t :: us)) (ht : sym t ≠ last) :
    ∃ u vs, us = u :: vs ∧ Ended sym last us := by
  obtain ⟨_ | ⟨v, vs⟩, w, h, hw⟩ := h
  · obtain ⟨rfl, -⟩ := List.cons.inj h
    exact absurd hw ht
  · obtain ⟨-, rfl⟩ := List.cons.inj h
    rcases vs with _ | ⟨v', vs⟩
    · exact ⟨w, [], rfl, [], w, rfl, hw⟩
    · exact ⟨v', vs ++ [w], rfl, v' :: vs, w, rfl, hw⟩

theorem Yields.mono (hx : Yields sym last stuck n d H x P) (hm : m ≤ n) (he : e ≤ d) (hH : ∀ y, H' y → H y)
    (hP : ∀ a y, P a y → Q a y) : Yields sym last stuck m e H' x Q := by
  intro t us hend hlen ht
  obtain ⟨hstuck, hok⟩ := hx t us hend (Nat.lt_of_lt_of_le hlen hm) (hH _ ht)
  refine ⟨hstuck, fun a rest hrest => ?_⟩
  obtain ⟨t', us', rfl, hend', htaken, ha⟩ := hok a rest hrest
  exact ⟨t', us', rfl, hend', by omega, hP _ _ ha⟩

/-- What is accepted is known to have less. -/
theorem Yields.imp (hx : Yields sym last stuck n d H x P) (hP : ∀ a y, P a y → Q a y) :
    Yields sym last stuck n d H x Q :=
  hx.mono le_rfl le_rfl (fun _ h => h) hP

/-- More is known of the token at the front. -/
theorem Yields.front (hx : Yields sym last stuck n d H x P) (hH : ∀ y, H' y → H y) :
    Yields sym last stuck n d H' x P :=
  hx.mono le_rfl le_rfl hH fun _ _ h => h

/-- There are fewer tokens. -/
theorem Yields.within (hx : Yields sym last stuck n d H x P) (hm : m ≤ n) : Yields sym last stuck m d H x P :=
  hx.mono hm le_rfl (fun _ h => h) fun _ _ h => h

/-- It does not matter how many tokens are taken. -/
theorem Yields.loose (hx : Yields sym last stuck n d H x P) : Yields sym last stuck n 0 H x P :=
  hx.mono le_rfl (Nat.zero_le _) (fun _ h => h) fun _ _ h => h

theorem Yields.pure (ha : ∀ y, H y → Q a y) : Yields sym last stuck n 0 H (pure a) Q := by
  intro t us hend hlen ht
  refine ⟨fun h => (by cases h), fun b rest hrest => ?_⟩
  obtain ⟨rfl, rfl⟩ := Prod.mk.inj (Except.ok.inj hrest)
  exact ⟨t, us, rfl, hend, le_rfl, ha _ ht⟩

theorem Yields.bind (hx : Yields sym last stuck n d H x P)
    (hf : ∀ a, Yields sym last stuck (n - d) e (P a) (f a) R) : Yields sym last stuck n (d + e) H (x >>= f) R := by
  intro t us hend hlen ht
  obtain ⟨hstuck, hok⟩ := hx t us hend hlen ht
  change (x (t :: us) >>= fun r => f r.1 r.2) ≠ _ ∧ ∀ b rest, (x (t :: us) >>= fun r => f r.1 r.2) = _ → _
  -- the second parser starts on what the first one left, which is shorter by `d` tokens at least
  rcases hrun : x (t :: us) with err | ⟨a, rest⟩
  · rw [hrun] at hstuck
    refine ⟨fun h => hstuck ?_, fun b rest h => (by cases h)⟩
    rw [Except.error.inj h]
  · obtain ⟨t', us', rfl, hend', htaken, ha⟩ := hok a rest hrun
    obtain ⟨hstuck', hok'⟩ := hf a t' us' hend' (by omega) ha
    refine ⟨hstuck', fun b rest h => ?_⟩
    obtain ⟨t'', us'', rfl, hend'', htaken', hb⟩ := hok' b rest h
    exact ⟨t'', us'', rfl, hend'', by omega, hb⟩

theorem Yields.peek (hg : ∀ y, H y → Yields sym last stuck n d (· = y) (g y) R) :
    Yields sym last stuck n d H (peek sym stuck >>= g) R :=
  fun t us hend hlen ht => hg (sym t) ht t us hend hlen rfl

theorem Yields.look {γ : Type} {view : τ → γ} {g : γ → Parser τ ε β}
    (hg : ∀ v, Yields sym last stuck n d H (g v) R) : Yields sym last stuck n d H (Descent.peek view stuck >>= g) R :=
  fun t us hend hlen ht => hg (view t) t us hend hlen ht

/-- The token at the front is known. -/
theorem Yields.each (hx : ∀ y, H y → Yields sym last stuck n d (· = y) x Q) : Yields sym last stuck n d H x Q :=
  fun t us hend hlen ht => hx (sym t) ht t us hend hlen rfl

theorem Yields.advance (hH : ∀ y, H y → y ≠ last) (hh : Yields sym last stuck (n - 1) d (fun _ => True) (h ()) R) :
    Yields sym last stuck n (d + 1) H (advance stuck >>= h) R := by
  intro t us hend hlen ht
  obtain ⟨u, vs, rfl, hend'⟩ := hend.tail (hH _ ht)
  rw [List.length_cons] at hlen
  obtain ⟨hstuck, hok⟩ := hh u vs hend' (by omega) trivial
  refine ⟨hstuck, fun b rest hrest => ?_⟩
  obtain ⟨t', us', rfl, hend'', htaken, hb⟩ := hok b rest hrest
  exact ⟨t', us', rfl, hend'', by rw [List.length_cons]; omega, hb⟩

/-- What is taken may be the token that was looked for, or no token. -/
theorem Yields.accept [DecidableEq σ] (hy : y ≠ last)
    (htrue : Yields sym last stuck (n - 1) (d - 1) (fun _ => True) (c true) R)
    (hfalse : Yields sym last stuck n d (fun z => H z ∧ z ≠ y) (c false) R) :
    Yields sym last stuck n d H (accept sym stuck y >>= c) R := by
  intro t us hend hlen ht
  change (Descent.accept sym stuck y (t :: us) >>= fun r => c r.1 r.2) ≠ _ ∧
    ∀ b rest, (Descent.accept sym stuck y (t :: us) >>= fun r => c r.1 r.2) = _ → _
  -- a token is only gone where it was the one looked for, and the last one is not
  by_cases hsym : sym t = y
  · rw [show Descent.accept sym stuck y (t :: us) = .ok (true, us) from if_pos hsym]
    obtain ⟨u, vs, rfl, hend'⟩ := hend.tail (hsym ▸ hy)
    rw [List.length_cons] at hlen
    obtain ⟨hstuck, hok⟩ := htrue u vs hend' (by omega) trivial
    refine ⟨hstuck, fun b rest hrest => ?_⟩
    obtain ⟨t', us', rfl, hend'', htaken, hb⟩ := hok b rest hrest
    exact ⟨t', us', rfl, hend'', by rw [List.length_cons]; omega, hb⟩
  · rw [show Descent.accept sym stuck y (t :: us) = .ok (false, t :: us) from if_neg hsym]
    exact hfalse t us hend hlen ⟨ht, hsym⟩

theorem Yields.taken (hH : ∀ y, H y → y ≠ last) :
    Yields sym last stuck n 1 H (Descent.advance stuck) fun _ _ => True := by
  have : Yields sym last stuck n (0 + 1) H (Descent.advance stuck >>= Pure.pure) fun _ _ => True :=
    Yields.advance hH (Yields.pure fun _ _ => trivial)
  rwa [bind_pure] at this

theorem Yields.accepted [DecidableEq σ] (hy : y ≠ last) :
    Yields sym last stuck n 0 H (Descent.accept sym stuck y) fun _ _ => True := by
  have : Yields sym last stuck n 0 H (Descent.accept sym stuck y >>= Pure.pure) fun _ _ => True :=
    Yields.accept hy (Yields.pure fun _ _ => trivial) (Yields.pure fun _ _ => trivial)
  rwa [bind_pure] at this

theorem Yields.failAt {err : τ → ε} (herr : ∀ t, err t ≠ stuck) :
    Yields sym last stuck n d H (failAt stuck err) Q := by
  intro t us _ _ _
  exact ⟨fun h => herr t (Except.error.inj h), fun a rest h => (by cases h)⟩

theorem Yields.fail {err : ε} (herr : err ≠ stuck) :
    Yields sym last stuck n d H (fun _ => .error err : Parser τ ε α) Q :=
  fun _ _ _ _ _ => ⟨fun h => herr (Except.error.inj h), fun _ _ h => (by cases h)⟩

theorem Yields.peekSecond (hg : ∀ z, Yields sym last stuck n d H (g z) R) :
    Yields sym last stuck n d H (peekSecond sym stuck >>= g) R := by
  intro t us hend hlen ht
  -- in front of the end of the list the token itself is seen twice
  rcases us with _ | ⟨u, us⟩
  · exact hg (sym t) t [] hend hlen ht
  · exact hg (sym u) t (u :: us) hend hlen ht

/-- What a value is like is all that the rest needs to know. -/
theorem Yields.next {S : α → Prop} (hx : Yields sym last stuck n d H x fun a _ => S a)
    (hf : ∀ a, S a → Yields sym last stuck n 0 (fun _ => True) (f a) R) : Yields sym last stuck n 0 H (x >>= f) R := by
  have hbind := Yields.bind (e := 0) hx fun a => Yields.mono (m := n - d) (Yields.each fun y (ha : S a) =>
    (hf a ha).mono le_rfl le_rfl (fun _ _ => trivial) fun _ _ h => h) (by omega) le_rfl (fun _ h => h) fun _ _ h => h
  exact hbind.loose

/-- A token is taken, so the rest has fewer. -/
theorem Yields.first {S : α → Prop} (hx : Yields sym last stuck n 1 H x fun a _ => S a) (hm : n - 1 ≤ m)
    (hf : ∀ a, S a → Yields sym last stuck m 0 (fun _ => True) (f a) R) : Yields sym last stuck n 1 H (x >>= f) R :=
  Yields.bind (e := 0) hx fun a => Yields.each fun _ (ha : S a) =>
    (hf a ha).mono hm le_rfl (fun _ _ => trivial) fun _ _ h => h

/-- A choice by what was found out. -/
theorem Yields.ite {p : Prop} [Decidable p] {x' : Parser τ ε α} (hpos : p → Yields sym last stuck n d H x Q)
    (hneg : ¬p → Yields sym last stuck n d H x' Q) : Yields sym last stuck n d H (if p then x else x') Q := by
  by_cases hp : p
  · rw [if_pos hp]
    exact hpos hp
  · rw [if_neg hp]
    exact hneg hp

/-- A fact that the tokens have nothing to do with. -/
theorem Yields.assume {p : Prop} (hx : p → Yields sym last stuck n d H x Q) :
    Yields sym last stuck n d (fun y => p ∧ H y) x Q :=
  fun t us hend hlen ht => hx ht.1 t us hend hlen ht.2

variable {more : Parser τ ε Bool} {body : α → Parser τ ε α} {item : Parser τ ε α} {C D : σ → Prop} {R' : α → Prop}

/-- An invariant of a loop holds when it ends, and the loop ends. -/
theorem Yields.iterate (hmore : ∀ a, Yields sym last stuck n 0 (P a) more fun b y =>
      P a y ∧ (b = true → C y) ∧ (b = false → D y))
    (hbody : ∀ a, Yields sym last stuck n 1 (fun y => P a y ∧ C y) (body a) P) (a : α) :
    Yields sym last stuck n 0 (P a) (iterate stuck more body a) fun a y => P a y ∧ D y := by
  -- by induction on the fuel, for lists with at most so many tokens: each round takes one of both
  have hfuel : ∀ m a, Yields sym last stuck (min n m) 0 (P a) (iterateFuel stuck more body m a)
      fun a y => P a y ∧ D y := by
    intro m
    induction m with
    | zero =>
      intro a t us _ hlen _
      exact absurd hlen (by omega)
    | succ m ih =>
      intro a
      unfold iterateFuel
      refine Yields.bind (d := 0) (e := 0) ((hmore a).within (m := min n (m + 1)) (by omega)) fun b => ?_
      refine Yields.ite (fun hb => ?_) fun hb => ?_
      · have hstep : Yields sym last stuck (min n (m + 1) - 0) 1
            (fun y => P a y ∧ (b = true → C y) ∧ (b = false → D y)) (body a) P :=
          (hbody a).mono (by omega) le_rfl (fun y hy => ⟨hy.1, hy.2.1 hb⟩) fun _ _ h => h
        refine (Yields.bind hstep fun a' => (ih a').within ?_).loose
        omega
      · exact Yields.pure fun y hy => ⟨hy.1, hy.2.2 (by simpa using hb)⟩
  intro t us hend hlen ht
  exact hfuel _ a t us hend (by rw [List.length_cons]; omega) ht

/-- What a loop collects, and that it ends. -/
theorem Yields.many (hmore : Yields sym last stuck n 0 H more fun b y => (b = true → C y) ∧ (b = false → D y))
    (hitem : Yields sym last stuck n 1 C item fun a y => R' a ∧ H y) :
    Yields sym last stuck n 0 H (many stuck more item) fun as y => (∀ a ∈ as, R' a) ∧ D y := by
  have hfuel : ∀ m, Yields sym last stuck (min n m) 0 H (manyFuel stuck more item m)
      fun as y => (∀ a ∈ as, R' a) ∧ D y := by
    intro m
    induction m with
    | zero =>
      intro t us _ hlen _
      exact absurd hlen (by omega)
    | succ m ih =>
      unfold manyFuel
      refine Yields.bind (d := 0) (e := 0) (hmore.within (m := min n (m + 1)) (by omega)) fun b => ?_
      refine Yields.ite (fun hb => ?_) fun hb => ?_
      · have hstep : Yields sym last stuck (min n (m + 1) - 0) 1 (fun y => (b = true → C y) ∧ (b = false → D y)) item
            fun a y => R' a ∧ H y :=
          hitem.mono (by omega) le_rfl (fun y hy => hy.1 hb) fun _ _ h => h
        refine (Yields.bind (e := 0) hstep fun a => ?_).loose
        refine Yields.assume fun ha => Yields.bind (d := 0) (e := 0) (ih.within (by omega)) fun as =>
          Yields.pure fun y hy => ⟨?_, hy.2⟩
        simpa using ⟨ha, hy.1⟩
      · refine Yields.pure fun y hy => ⟨by simp, hy.2 (by simpa using hb)⟩
  intro t us hend hlen ht
  exact hfuel _ t us hend (by rw [List.length_cons]; omega) ht

end

end Descent
