import Lua2wasm.Scope.Walk

/-!
# Name resolution is lexical scoping

For a program that `resolve` accepts, the resolved program is the lexically scoped one and every
access to an escape table is inside its bounds, if and only if no function declares more locals than
such a table has entries (`resolve_correct_iff`). The limit that the parser checks is another one: it
bounds the locals in scope at a time, while the table is indexed by slots, which are never reused.
-/

namespace Lua2wasm

open Fallible

variable {F : ParseResult} {chunk : List RawStmt} {ib : Bool}

/-! ## Captured slots -/

/-- A denoted local is captured by a function that stands directly in its function. -/
theorem Denotes.uses {fn g : Option ℕ} {kind : VarKind} {i slot : ℕ}
    (h : Denotes F fn kind i g slot) (hkind : kind = .varUpval) :
    Uses F.funcs g ⟨.fromLocal, slot⟩ := by
  induction h with
  | here => cases hkind
  | fromLocal hf hu => exact ⟨_, List.mem_of_getElem? hf, rfl, List.mem_of_getElem? hu⟩
  | fromUpval hf hu hd ih => exact ih rfl

/-- Every upvalue is used, in the body of its function or in that of a function nested in it. -/
theorem upvalue_used (hclosed : ∀ k lf, F.funcs[k]? = some lf → ClosedInv F.funcs k lf)
    (hparents : ∀ (k : ℕ) (lf : LuaFunc), F.funcs[k]? = some lf → ∀ j, lf.parentIdx = some j → j < k)
    {k i : ℕ} {lf : LuaFunc} (hk : F.funcs[k]? = some lf) (hi : i < lf.upvalues.length) :
    ∃ k' lf' i', F.funcs[k']? = some lf' ∧ (.varUpval, i') ∈ stmtsVars lf'.body ∧
      ∀ g slot, Denotes F (some k) .varUpval i g slot →
        Denotes F (some k') .varUpval i' g slot := by
  -- A nested function has a greater index, so the induction is on the distance to the last one.
  obtain ⟨n, hn⟩ : ∃ n, F.funcs.length - k ≤ n := ⟨_, Nat.le_refl _⟩
  induction n generalizing k i lf with
  | zero =>
    have := (List.getElem?_eq_some_iff.mp hk).1
    omega
  | succ n ih =>
    rcases (hclosed k lf hk).used i hi with hocc | ⟨child, hchild, hparent, hmem⟩
    · exact ⟨k, lf, i, hk, hocc, fun _ _ hd => hd⟩
    · obtain ⟨c, hc⟩ := List.mem_iff_getElem?.mp hchild
      obtain ⟨j, hj⟩ := List.mem_iff_getElem?.mp hmem
      have hlt := hparents c child hc k hparent
      have hjlt := (List.getElem?_eq_some_iff.mp hj).1
      obtain ⟨k', lf', i', hk', hocc, hd⟩ := ih hc hjlt (by omega)
      exact ⟨k', lf', i', hk', hocc, fun g slot h => hd g slot (.fromUpval hc hj (hparent ▸ h))⟩

/-- A slot is captured exactly if a nested function uses it. -/
theorem uses_iff_references
    (hclosed : ∀ k lf, F.funcs[k]? = some lf → ClosedInv F.funcs k lf)
    (hparents : ∀ (k : ℕ) (lf : LuaFunc), F.funcs[k]? = some lf → ∀ j, lf.parentIdx = some j → j < k)
    (fn : Option ℕ) (slot : ℕ) :
    Uses F.funcs fn ⟨.fromLocal, slot⟩ ↔ References F fn slot := by
  constructor
  · rintro ⟨lf, hlf, hparent, hmem⟩
    obtain ⟨k, hk⟩ := List.mem_iff_getElem?.mp hlf
    obtain ⟨i, hi⟩ := List.mem_iff_getElem?.mp hmem
    have hilt := (List.getElem?_eq_some_iff.mp hi).1
    obtain ⟨k', lf', i', hk', hocc, hd⟩ := upvalue_used hclosed hparents hk hilt
    exact ⟨k', lf', i', hk', hocc, hd fn slot (hparent ▸ .fromLocal hk hi)⟩
  · rintro ⟨k, lf, i, -, -, hd⟩
    exact hd.uses rfl

/-! ## The whole program -/

/-- The invariant in the state in which `parse` begins. -/
theorem init_inv : Inv [] [[]] Parser.init where
  curFn := rfl
  opened := trivial
  depth := rfl
  parents := by simp [Parser.init]
  frames := ⟨frameInv_init (by rintro r ⟨lf, hlf, -⟩; cases hlf), trivial⟩
  closed := by simp [Parser.init]
  inBounds := by simp [Parser.init]

/-- The program that `parse` returns, from the state in which it ends. -/
def Parser.toResult (p : Parser) (body : Block) : ParseResult :=
  { mainBody := body, mainNLocals := p.frame.nextSlot
    mainCaptured := (p.frame.captured.copy p.frame.nextSlot).1
    funcs := p.funcs, globals := p.globals }

/-- What the walk establishes of a resolved program. -/
theorem resolve_post (h : resolve chunk = .ok (F, ib)) : ∃ (body : Block) (p : Parser),
    F = p.toResult body ∧ ib = (p.inBounds && (p.frame.captured.copy p.frame.nextSlot).2) ∧
    (stmtsSlots body).length = stmtsDecls chunk ∧
    Post [] [] [] Parser.init p (stmtsVars body) (stmtsSlots body) (stmtsFuncs chunk)
      (fun F env env' => LexStmts F none env chunk body env') := by
  obtain ⟨⟨body, p⟩, hbody, h⟩ := except_bind_ok h
  cases h
  have hslots := resolveBlock_yields (resolveStmts_slots false chunk) _ _ _ hbody
  exact ⟨body, p, rfl, rfl, hslots, Resolves.block (@resolveStmts_post false chunk) init_inv hbody⟩

/-- The final state is completed by its own program. -/
theorem toResult_completes {p : Parser} {occs : List (List VarOcc)} (hp : Inv [] occs p)
    (body : Block) : Completes (p.toResult body) [] p := by
  refine ⟨fun k lf hk _ => hk, ?_, List.prefix_rfl⟩
  rw [List.length_eq_zero_iff.mp hp.depth]
  trivial

/-- A resolved program is lexically scoped when its slots fit the escape tables. -/
theorem lexicallyScoped {body : Block} {p : Parser}
    (post : Post [] [] [] Parser.init p (stmtsVars body) (stmtsSlots body) (stmtsFuncs chunk)
      (fun F env env' => LexStmts F none env chunk body env'))
    (hmain : p.frame.nextSlot ≤ maxLocalsPerFn)
    (hfuncs : ∀ lf ∈ p.funcs, lf.nLocals ≤ maxLocalsPerFn) :
    LexicallyScoped chunk (p.toResult body) := by
  have hinv := post.inv
  have hclosed : ∀ k lf, (p.toResult body).funcs[k]? = some lf →
      ClosedInv (p.toResult body).funcs k lf := fun k lf hk => hinv.closed k lf hk (by simp)
  have href := uses_iff_references hclosed hinv.parents
  have hnext : p.frame.nextSlot = (stmtsSlots body).length := by
    rw [post.next]
    exact Nat.zero_add _
  refine ⟨⟨p.env [], ?_⟩, ?_, ?_, ?_, ?_⟩
  · exact post.lex _ (toResult_completes hinv body)
  · change stmtsSlots body = List.range p.frame.nextSlot
    rw [hnext, List.range_eq_range']
    exact post.slotsEq
  · intro lf hlf
    obtain ⟨k, hk⟩ := List.mem_iff_getElem?.mp hlf
    exact (hclosed k lf hk).slots
  · intro s hs
    change s < p.frame.nextSlot at hs
    have hmarked := hinv.frames.1.marked (hinv.frames.1.inBounds hmain) s
    change (p.frame.captured.flags.take p.frame.nextSlot)[s]? = some true ↔ _
    rw [List.getElem?_take, if_pos hs, hmarked, ← href]
    simp [Parser.toResult]
  · intro k lf hk s hs
    rw [← href]
    exact (hclosed k lf hk).captured (hfuncs lf (List.mem_of_getElem? hk)) s

/-- Name resolution is lexical scoping, with all accesses to the escape tables in bounds, exactly if
no function declares more locals than an escape table has entries. -/
theorem resolve_correct_iff (h : resolve chunk = .ok (F, ib)) :
    (LexicallyScoped chunk F ∧ ib = true) ↔ FitsEscapeTable chunk := by
  obtain ⟨body, p, rfl, rfl, hlen, post⟩ := resolve_post h
  have hinv := post.inv
  have hnext : p.frame.nextSlot = stmtsDecls chunk := by
    rw [post.next, hlen]
    exact Nat.zero_add _
  have hcounts : p.funcs.map (·.nLocals) = stmtsFuncs chunk := by
    simpa [Parser.init] using post.countsEq
  have hfits : FitsEscapeTable chunk ↔ p.frame.nextSlot ≤ maxLocalsPerFn ∧
      ∀ lf ∈ p.funcs, lf.nLocals ≤ maxLocalsPerFn := by
    unfold FitsEscapeTable
    rw [List.forall_mem_cons, ← hcounts, List.forall_mem_map, hnext]
  have hib : (p.inBounds && (p.frame.captured.copy p.frame.nextSlot).2) = true ↔
      FitsEscapeTable chunk := by
    rw [Bool.and_eq_true, hinv.inBounds, hinv.frames.1.copy_inBounds, hfits, and_comm]
  rw [hib]
  refine ⟨And.right, fun hfit => ⟨?_, hfit⟩⟩
  obtain ⟨hmain, hfuncs⟩ := hfits.mp hfit
  exact lexicallyScoped post hmain hfuncs

/-- The theorem at `local x; local function f() return x end`. -/
theorem resolve_correct_capture : ∃ F ib,
    resolve [.localStmt [("x", .none)] [],
      .localFunc "f" (.mk [] .none [.returnStmt [.name "x"]])] = .ok (F, ib) ∧
    ((LexicallyScoped [.localStmt [("x", .none)] [],
      .localFunc "f" (.mk [] .none [.returnStmt [.name "x"]])] F ∧ ib = true) ↔
    FitsEscapeTable [.localStmt [("x", .none)] [],
      .localFunc "f" (.mk [] .none [.returnStmt [.name "x"]])]) := by
  obtain ⟨⟨F, ib⟩, h⟩ : ∃ r, resolve [.localStmt [("x", .none)] [],
      .localFunc "f" (.mk [] .none [.returnStmt [.name "x"]])] = .ok r := by
    have hrun : (resolve [.localStmt [("x", .none)] [],
      .localFunc "f" (.mk [] .none [.returnStmt [.name "x"]])]).toBool = true := by decide +kernel
    exact toBool_ok hrun
  exact ⟨F, ib, h, resolve_correct_iff h⟩

/-- A chunk of 257 blocks that declare one local each is accepted, with one local in scope at a
time. Its 257 slots do not fit the escape table, so the copy of the flags reads past its end. -/
theorem resolve_out_of_bounds :
    ¬ ∀ (chunk : List RawStmt) (F : ParseResult) (ib : Bool), resolve chunk = .ok (F, ib) →
      LexicallyScoped chunk F ∧ ib = true := by
  intro h
  have hrun : (resolve (List.replicate 257 (.doStmt [.localStmt [("x", .none)] []]))).toOption.map
      (·.2) = some false := by decide +kernel
  obtain ⟨⟨F, ib⟩, hr, hib⟩ := toOption_map_some hrun
  exact absurd ((h _ F ib hr).2.symm.trans hib) (by decide)

end Lua2wasm
