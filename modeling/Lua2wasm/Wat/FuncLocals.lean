import Lua2wasm.Wat.Func
import Lua2wasm.Lib.Fallible
import Mathlib.Data.List.Count

/-!
# The numbers of parameters and locals

In the binary format the parameters of a function come before its locals, and both are numbered in the order in which
they are declared. The assembler numbers them in the order in which it meets them; the parameters of a type that is
only referred to it appends at the end, after the locals (`layout`). `func_locals_iff` says when the numbers
(`Numbered`) come out right all the same: if this order puts no named entry into another's place, and the types of the
locals where they are (`InPlace`).
-/

namespace Lua2wasm.Wat

open Leb128 Fallible

/-! ## Declarations -/

/-- The declaration of a parameter or a local. -/
structure Decl where
  /-- It is one of a parameter. -/
  isParam : Bool
  /-- The name. -/
  name : Option String
  /-- The encoded type. -/
  type : List UInt8

/-- The entry that is made for a declaration. -/
def Decl.entry (d : Decl) : Local := ⟨d.name, d.type⟩

/-- The type that a node spells. A node that spells none is rejected. -/
def typeOf (c : Ctx) (n : Option SExpr) : List UInt8 := (valtypeBytes c n).toOption.getD []

/-- The declarations of a group. -/
def groupDecls (c : Ctx) (isParam : Bool) : List SExpr → List Decl
  | [] => []
  | k :: ks =>
    match k.ident with
    | some s => [⟨isParam, some s, typeOf c ks.head?⟩]
    | none => (k :: ks).map fun k => ⟨isParam, none, typeOf c (some k)⟩

/-- The declarations of a node. -/
def nodeDecls (c : Ctx) (k : SExpr) : List Decl :=
  if k.head = some "param" then groupDecls c true k.args
  else if k.head = some "local" then groupDecls c false k.args
  else []

/-- The node is not the first of the body. -/
def isHeader (k : SExpr) : Bool :=
  k.ident.isSome || k.head ∈ [some "export", some "type", some "param", some "result", some "local"]

/-- What is before the body. -/
def header (fn : SExpr) : List SExpr := fn.args.takeWhile isHeader

/-- The declarations of a function, as they are written. -/
def declared (c : Ctx) (fn : SExpr) : List Decl := (header fn).flatMap (nodeDecls c)

/-- The type that a node refers to. -/
def nodeType (c : Ctx) (k : SExpr) : Option ℕ :=
  if k.head = some "type" then (resolveType c k.args.head?).toOption else none

/-- The type that a function refers to, the last one if there are several. -/
def typeUse (c : Ctx) (nodes : List SExpr) : Option ℕ := (nodes.filterMap (nodeType c)).getLast?

/-- The parameters of a function that come only from the type that it refers to. -/
def typeParams (c : Ctx) (fn : SExpr) : List Decl :=
  if (declared c fn).any Decl.isParam then []
  else ((typeUse c (header fn)).map fun r => List.replicate (declaredParams c r) ⟨true, none, [0x7f]⟩).getD []

/-- The declarations in the order in which the assembler numbers them. -/
def layout (c : Ctx) (fn : SExpr) : List Decl := declared c fn ++ typeParams c fn

/-- The parameters among declarations. -/
def paramsOf (l : List Decl) : List Decl := l.filter Decl.isParam

/-- The locals among declarations. -/
def localsOf (l : List Decl) : List Decl := l.filter fun d => !d.isParam

/-- The numbers that are wanted: the parameters, then the locals, and an entry of the code section that lists the types
of the locals. -/
structure Numbered (fn : Func) (l : List Decl) : Prop where
  param : ∀ (i : ℕ) (d : Decl) s isString, (paramsOf l)[i]? = some d → d.name = some s →
    resolveLocal fn (.atom s isString) = .ok i
  local_ : ∀ (j : ℕ) (d : Decl) s isString, (localsOf l)[j]? = some d → d.name = some s →
    resolveLocal fn (.atom s isString) = .ok ((paramsOf l).length + j)
  code : ∀ body, readCode (encodeCode fn body) = some ((localsOf l).map Decl.type, body)

/-- The order does no harm. -/
structure InPlace (l : List Decl) : Prop where
  /-- No two names are the same. -/
  distinct : ∀ (i j : ℕ) (d e : Decl) s, l[i]? = some d → l[j]? = some e → d.name = some s → e.name = some s → i = j
  /-- A local before a parameter, and the parameter, are not named. -/
  order : ∀ (i j : ℕ) (d e : Decl), i < j → l[i]? = some d → l[j]? = some e → d.isParam = false → e.isParam = true →
    d.name = none ∧ e.name = none
  /-- What is after as many entries as there are parameters has the types of the locals. -/
  types : (l.drop (paramsOf l).length).map Decl.type = (localsOf l).map Decl.type

variable {c : Ctx} {fn k : SExpr} {ks nodes : List SExpr} {out out' : Func} {l : List Decl} {d e : Decl}
  {ls : List Local} {t rest body : List UInt8} {isParam : Bool} {i j r : ℕ} {s : String}

/-! ## What is parsed -/

theorem typeOf_ok {n : Option SExpr} (h : valtypeBytes c n = .ok t) : typeOf c n = t := by
  unfold typeOf
  rw [h]
  rfl

theorem collectUnnamed_ok (h : collectUnnamed c ks = .ok ls) :
    ls = (ks.map fun k => (⟨isParam, none, typeOf c (some k)⟩ : Decl)).map Decl.entry ∧
      ∀ l ∈ ls, ∃ n, valtypeBytes c n = .ok l.type := by
  induction ks generalizing ls with
  | nil =>
    cases h
    exact ⟨rfl, nofun⟩
  | cons k ks ih =>
    unfold collectUnnamed at h
    obtain ⟨t, ht, h⟩ := except_bind_ok h
    obtain ⟨ls', hls, h⟩ := except_bind_ok h
    cases h
    obtain ⟨heq, hall⟩ := ih hls
    constructor
    · rw [heq, List.map_cons, List.map_cons, typeOf_ok ht]
      rfl
    · intro l hl
      rcases List.mem_cons.mp hl with rfl | hl
      · exact ⟨_, ht⟩
      · exact hall l hl

/-- A group that is accepted is one of its declarations. -/
theorem collectGroup_ok (isParam : Bool) (h : collectGroup c ks = .ok ls) :
    ls = (groupDecls c isParam ks).map Decl.entry ∧ ∀ l ∈ ls, ∃ n, valtypeBytes c n = .ok l.type := by
  unfold collectGroup at h
  unfold groupDecls
  cases ks with
  | nil =>
    cases h
    exact ⟨rfl, nofun⟩
  | cons k ks =>
    dsimp only at h ⊢
    cases hk : k.ident with
    | some s =>
      rw [hk] at h
      obtain ⟨t, ht, h⟩ := except_bind_ok h
      cases h
      rw [typeOf_ok ht]
      refine ⟨rfl, fun l hl => ?_⟩
      rw [List.mem_singleton.mp hl]
      exact ⟨_, ht⟩
    | none =>
      rw [hk] at h
      exact collectUnnamed_ok h

/-- What the parser keeps of the nodes before the body. -/
structure Parsed (c : Ctx) (nodes : List SExpr) (out out' : Func) : Prop where
  locals : out'.locals = out.locals ++ (nodes.flatMap (nodeDecls c)).map Decl.entry
  nParams : out'.nParams = out.nParams + (paramsOf (nodes.flatMap (nodeDecls c))).length
  sig : out'.sig.nParams = out.sig.nParams + (paramsOf (nodes.flatMap (nodeDecls c))).length
  typeRef : out'.typeRef = (typeUse c nodes).or out.typeRef
  valtypes : (∀ l ∈ out.locals, ∃ n, valtypeBytes c n = .ok l.type) →
    ∀ l ∈ out'.locals, ∃ n, valtypeBytes c n = .ok l.type

/-- What a turn of the parser does, as far as the numbers are concerned. -/
structure Turn (c : Ctx) (k : SExpr) (out mid : Func) : Prop where
  locals : mid.locals = out.locals ++ (nodeDecls c k).map Decl.entry
  nParams : mid.nParams = out.nParams + (paramsOf (nodeDecls c k)).length
  sig : mid.sig.nParams = out.sig.nParams + (paramsOf (nodeDecls c k)).length
  typeRef : mid.typeRef = (nodeType c k).or out.typeRef
  valtypes : ∀ l ∈ (nodeDecls c k).map Decl.entry, ∃ n, valtypeBytes c n = .ok l.type

/-- A turn that declares nothing. -/
theorem turn_of_nil {mid : Func} (hds : nodeDecls c k = []) (href : mid.typeRef = (nodeType c k).or out.typeRef)
    (hlocals : mid.locals = out.locals) (hn : mid.nParams = out.nParams) (hsig : mid.sig.nParams = out.sig.nParams) :
    Turn c k out mid where
  locals := by rw [hds, hlocals, List.map_nil, List.append_nil]
  nParams := by rw [hds, hn]; rfl
  sig := by rw [hds, hsig]; rfl
  typeRef := href
  valtypes := by rw [hds]; nofun

/-- An identifier is no list. -/
theorem head_of_ident (h : k.ident = some s) : k.head = none := by
  cases k with
  | atom text isString => rfl
  | list kids => cases h

theorem nodeDecls_of_head (hp : k.head ≠ some "param") (hl : k.head ≠ some "local") : nodeDecls c k = [] := by
  unfold nodeDecls
  rw [if_neg hp, if_neg hl]

theorem nodeType_of_head (h : k.head ≠ some "type") : nodeType c k = none := if_neg h

theorem length_paramsOf_group (isParam : Bool) (ks : List SExpr) :
    (paramsOf (groupDecls c isParam ks)).length = if isParam then (groupDecls c isParam ks).length else 0 := by
  have hall : ∀ d ∈ groupDecls c isParam ks, d.isParam = isParam := by
    unfold groupDecls
    intro d hd
    split at hd
    · cases hd
    · split at hd
      · rw [List.mem_singleton.mp hd]
      · obtain ⟨k, -, rfl⟩ := List.mem_map.mp hd
        rfl
  unfold paramsOf
  cases isParam with
  | true => rw [List.filter_eq_self.mpr hall, if_pos rfl]
  | false =>
    have hnone : (groupDecls c false ks).filter Decl.isParam = [] :=
      List.filter_eq_nil_iff.mpr fun d hd => by rw [hall d hd]; exact Bool.false_ne_true
    rw [hnone]
    rfl

theorem headerNode_some {r : Except String Func} {mid : Func} (h : headerNode c k out = some r) (hr : r = .ok mid) :
    isHeader k = true ∧ Turn c k out mid := by
  unfold headerNode at h
  unfold isHeader
  cases hk : k.ident with
  | some s =>
    rw [hk] at h
    obtain rfl := Option.some.inj h
    cases hr
    have hhead := head_of_ident hk
    refine ⟨rfl, turn_of_nil (nodeDecls_of_head ?_ ?_) ?_ rfl rfl rfl⟩
    · simp [hhead]
    · simp [hhead]
    · rw [nodeType_of_head (by simp [hhead])]
      rfl
  | none =>
    rw [hk] at h
    dsimp only at h
    split at h
    case h_1 hhead =>
      refine ⟨by simp [hhead], ?_⟩
      split at h
      · obtain rfl := Option.some.inj h
        cases hr
        refine turn_of_nil (nodeDecls_of_head ?_ ?_) ?_ rfl rfl rfl
        · simp [hhead]
        · simp [hhead]
        · rw [nodeType_of_head (by simp [hhead])]
          rfl
      · obtain rfl := Option.some.inj h
        cases hr
    case h_2 hhead =>
      refine ⟨by simp [hhead], ?_⟩
      obtain rfl := Option.some.inj h
      obtain ⟨ref, href, hmid⟩ := except_bind_ok hr
      cases hmid
      -- an export declares nothing
      refine turn_of_nil (nodeDecls_of_head ?_ ?_) ?_ rfl rfl rfl
      · simp [hhead]
      · simp [hhead]
      · unfold nodeType
        rw [if_pos hhead, href]
        rfl
    -- the parameters are the declarations of the group
    case h_3 hhead =>
      refine ⟨by simp [hhead], ?_⟩
      obtain rfl := Option.some.inj h
      obtain ⟨ls, hls, hmid⟩ := except_bind_ok hr
      cases hmid
      obtain ⟨heq, hvalid⟩ := collectGroup_ok true hls
      have hds : nodeDecls c k = groupDecls c true k.args := if_pos hhead
      have hlen : (paramsOf (nodeDecls c k)).length = ls.length := by
        rw [hds, length_paramsOf_group, heq, List.length_map]
        rfl
      refine ⟨by rw [hds, ← heq]; rfl, by rw [hlen]; rfl, by rw [hlen]; rfl, ?_, by rw [hds, ← heq]; exact hvalid⟩
      rw [nodeType_of_head (by simp [hhead])]
      rfl
    case h_4 hhead =>
      refine ⟨by simp [hhead], ?_⟩
      obtain rfl := Option.some.inj h
      obtain ⟨ls, hls, hmid⟩ := except_bind_ok hr
      cases hmid
      refine turn_of_nil (nodeDecls_of_head ?_ ?_) ?_ rfl rfl rfl
      · simp [hhead]
      · simp [hhead]
      · rw [nodeType_of_head (by simp [hhead])]
        rfl
    case h_5 hhead =>
      refine ⟨by simp [hhead], ?_⟩
      obtain rfl := Option.some.inj h
      obtain ⟨ls, hls, hmid⟩ := except_bind_ok hr
      cases hmid
      obtain ⟨heq, hvalid⟩ := collectGroup_ok false hls
      have hds : nodeDecls c k = groupDecls c false k.args := by
        unfold nodeDecls
        rw [if_neg (by simp [hhead]), if_pos hhead]
      have hlen : (paramsOf (nodeDecls c k)).length = 0 := by
        rw [hds, length_paramsOf_group]
        rfl
      refine ⟨by rw [hds, ← heq]; rfl, by rw [hlen]; rfl, by rw [hlen]; rfl, ?_, by rw [hds, ← heq]; exact hvalid⟩
      rw [nodeType_of_head (by simp [hhead])]
      rfl
    case h_6 => cases h

theorem headerNode_none (h : headerNode c k out = none) : isHeader k = false := by
  unfold headerNode at h
  unfold isHeader
  cases hk : k.ident with
  | some s =>
    rw [hk] at h
    cases h
  | none =>
    rw [hk] at h
    dsimp only at h
    split at h
    case h_1 =>
      split at h
      · cases h
      · cases h
    case h_6 hexport htype hparam hresult hlocal =>
      simpa using ⟨hexport, htype, hparam, hresult, hlocal⟩
    all_goals cases h

/-- A turn, and the others. -/
theorem Turn.cons {mid : Func} (hturn : Turn c k out mid) (hrest : Parsed c ks mid out') :
    Parsed c (k :: ks) out out' where
  locals := by
    rw [hrest.locals, hturn.locals, List.flatMap_cons, List.map_append, List.append_assoc]
  nParams := by
    unfold paramsOf at *
    rw [hrest.nParams, hturn.nParams, List.flatMap_cons, List.filter_append, List.length_append, Nat.add_assoc]
    rfl
  sig := by
    unfold paramsOf at *
    rw [hrest.sig, hturn.sig, List.flatMap_cons, List.filter_append, List.length_append, Nat.add_assoc]
    rfl
  typeRef := by
    have hsplit : typeUse c (k :: ks) = (typeUse c ks).or (nodeType c k) := by
      unfold typeUse
      cases hk : nodeType c k with
      | none => rw [List.filterMap_cons_none hk, Option.or_none]
      | some r =>
        rw [List.filterMap_cons_some hk, ← List.singleton_append, List.getLast?_append]
        rfl
    rw [hrest.typeRef, hturn.typeRef, hsplit, Option.or_assoc]
  valtypes := by
    intro hout
    apply hrest.valtypes
    rw [hturn.locals]
    intro l hl
    rcases List.mem_append.mp hl with hl | hl
    · exact hout l hl
    · exact hturn.valtypes l hl

/-- The whole header. -/
theorem parseHeader_ok (h : parseHeader c ks out = .ok out') : Parsed c (ks.takeWhile isHeader) out out' := by
  induction ks generalizing out with
  | nil =>
    cases h
    exact ⟨(List.append_nil _).symm, rfl, rfl, rfl, fun h => h⟩
  | cons k ks ih =>
    unfold parseHeader at h
    cases hnode : headerNode c k out with
    | none =>
      rw [hnode] at h
      cases h
      rw [List.takeWhile_cons_of_neg (by rw [headerNode_none hnode]; exact Bool.false_ne_true)]
      exact ⟨(List.append_nil _).symm, rfl, rfl, rfl, fun h => h⟩
    | some r =>
      rw [hnode] at h
      obtain ⟨mid, hmid, h⟩ := except_bind_ok h
      obtain ⟨hheader, hturn⟩ := headerNode_some hnode hmid
      rw [List.takeWhile_cons_of_pos hheader]
      exact hturn.cons (ih h)

/-- The table of a function. -/
theorem parseFunc_ok (h : parseFunc c fn = .ok out) :
    out.locals = (layout c fn).map Decl.entry ∧ out.nParams = (paramsOf (layout c fn)).length ∧
      ∀ l ∈ out.locals, l.type = [0x7f] ∨ ∃ n, valtypeBytes c n = .ok l.type := by
  unfold parseFunc at h
  obtain ⟨mid, hmid, h⟩ := except_bind_ok h
  cases h
  obtain ⟨hlocals, hn, hsig, href, hvalid⟩ := parseHeader_ok hmid
  have hvalid' := hvalid nofun
  have hzero : mid.sig.nParams = 0 ↔ (declared c fn).any Decl.isParam = false := by
    rw [hsig]
    change 0 + ((declared c fn).filter Decl.isParam).length = 0 ↔ _
    rw [Nat.zero_add, List.length_eq_zero_iff, List.filter_eq_nil_iff, List.any_eq_false]
  have hdecl : mid.locals = (declared c fn).map Decl.entry := hlocals
  have hcount : mid.nParams = (paramsOf (declared c fn)).length := hn.trans (Nat.zero_add _)
  have huse : mid.typeRef = typeUse c (header fn) := href.trans Option.or_none
  unfold Func.recoverParams layout typeParams
  rw [← huse]
  cases hr : mid.typeRef with
  | none =>
    rw [Option.map_none, Option.getD_none, ite_self, List.append_nil]
    exact ⟨hdecl, hcount, fun l hl => Or.inr (hvalid' l hl)⟩
  | some r =>
    dsimp only
    rw [Option.map_some, Option.getD_some]
    by_cases hp : (declared c fn).any Decl.isParam = true
    · have hne : ¬ mid.sig.nParams = 0 := by
        rw [hzero, hp]
        exact Bool.noConfusion
      rw [if_neg hne, if_pos hp, List.append_nil]
      exact ⟨hdecl, hcount, fun l hl => Or.inr (hvalid' l hl)⟩
    · rw [if_pos (hzero.mpr (Bool.eq_false_iff.mpr hp)), if_neg hp]
      refine ⟨?_, ?_, ?_⟩
      · dsimp only
        rw [hdecl, List.map_append, List.map_replicate]
        rfl
      · unfold paramsOf at *
        rw [List.filter_append, List.length_append, ← hcount, List.filter_replicate_of_pos rfl, List.length_replicate]
      · intro l hl
        rcases List.mem_append.mp hl with hl | hl
        · exact Or.inr (hvalid' l hl)
        · left
          rw [(List.mem_replicate.mp hl).2]

/-! ## What is encoded -/

/-- The bytes are one value type. -/
def IsValtype (t : List UInt8) : Prop := ∀ rest, readValtype (t ++ rest) = some (t, rest)

theorem isValtype_single {b : UInt8} (h : ¬ (b = 0x63 ∨ b = 0x64)) : IsValtype [b] := by
  intro rest
  exact if_neg h

theorem isValtype_ref {b : UInt8} {t : List UInt8} (hb : b = 0x63 ∨ b = 0x64)
    (ht : ∀ rest, readGroup (t ++ rest) = some (t, rest)) : IsValtype (b :: t) := by
  intro rest
  rw [List.cons_append]
  unfold readValtype
  dsimp only
  rw [if_pos hb, ht]
  rfl

theorem atomValtype_code {b : UInt8} (h : atomValtype s = some b) : ¬ (b = 0x63 ∨ b = 0x64) := by
  unfold atomValtype abstractReftype at h
  split at h
  all_goals first | (cases h; decide) | (split at h <;> cases h <;> decide)

theorem abstractHeaptype_code {b : UInt8} (h : abstractHeaptype s = some b) : b.toNat < 128 := by
  unfold abstractHeaptype at h
  split at h <;> cases h <;> decide

/-- A heap type is one group of bytes. -/
theorem emitHeaptype_ok (h : emitHeaptype c k = .ok t) (rest : List UInt8) : readGroup (t ++ rest) = some (t, rest) := by
  unfold emitHeaptype at h
  split at h
  · cases h
  · split at h
    case h_1 hb =>
      cases h
      have hlow := abstractHeaptype_code (by
        split at hb
        · cases hb
        · exact hb)
      rw [List.singleton_append]
      unfold readGroup
      rw [if_pos hlow]
    case h_2 =>
      obtain ⟨i, -, h⟩ := except_bind_ok h
      cases h
      exact readGroup_sleb i rest

theorem emitRef_ok (h : emitRef c ks = .ok t) : IsValtype t := by
  unfold emitRef at h
  split at h
  · obtain ⟨u, hu, h⟩ := except_bind_ok h
    cases h
    exact isValtype_ref (Or.inl rfl) (emitHeaptype_ok hu)
  · cases h
  · obtain ⟨u, hu, h⟩ := except_bind_ok h
    cases h
    exact isValtype_ref (Or.inr rfl) (emitHeaptype_ok hu)
  · cases h

theorem valtypeBytes_ok {n : Option SExpr} (h : valtypeBytes c n = .ok t) : IsValtype t := by
  unfold valtypeBytes at h
  split at h
  · cases h
  · split at h
    · split at h
      case h_1 hb =>
        cases h
        exact isValtype_single (atomValtype_code hb)
      case h_2 => cases h
    · split at h
      · exact emitRef_ok h
      · cases h

/-- The runs are read back as the types that they have been made of. -/
theorem readRuns_groupRuns (hvalid : ∀ l ∈ ls, IsValtype l.type) (rest : List UInt8) :
    readRuns (groupRuns ls).length ((groupRuns ls).flatMap (fun r => uleb r.1 ++ r.2) ++ rest) =
      some (ls.map Local.type, rest) := by
  induction ls using groupRuns.induct with
  | case1 =>
    unfold groupRuns
    rfl
  | case2 l ls same ih =>
    have hdrop : ls.drop same.length = ls.dropWhile fun m => m.type = l.type := by
      conv_lhs => rw [← List.takeWhile_append_dropWhile (p := fun m : Local => m.type = l.type) (l := ls)]
      exact List.drop_left
    have hsame : same.map Local.type = List.replicate same.length l.type := by
      rw [List.eq_replicate_iff]
      refine ⟨List.length_map _, fun t ht => ?_⟩
      obtain ⟨m, hm, rfl⟩ := List.mem_map.mp ht
      exact of_decide_eq_true (List.mem_takeWhile_imp (p := fun m : Local => decide (m.type = l.type)) hm)
    have hall : ls.map Local.type = List.replicate same.length l.type ++ (ls.drop same.length).map Local.type := by
      rw [← hsame, hdrop, ← List.map_append, List.takeWhile_append_dropWhile]
    have hrest := ih fun m hm => hvalid m (List.mem_cons_of_mem l (List.mem_of_mem_drop hm))
    unfold groupRuns
    rw [List.length_cons, List.flatMap_cons, List.append_assoc, List.append_assoc]
    unfold readRuns
    rw [readUleb_uleb]
    simp only [Option.bind_eq_bind, Option.bind_some]
    rw [hvalid l List.mem_cons_self]
    simp only [Option.bind_some]
    rw [hrest, List.map_cons, hall]
    rfl

/-- The entry lists the types that come after as many as there are parameters. -/
theorem readCode_encodeCode {fn : Func} (hvalid : ∀ l ∈ fn.locals, IsValtype l.type) (body : List UInt8) :
    readCode (encodeCode fn body) = some ((fn.locals.drop fn.nParams).map Local.type, body) := by
  unfold readCode encodeCode
  rw [readUleb_uleb]
  simp only [Option.bind_eq_bind, Option.bind_some, if_true]
  rw [List.append_assoc, readUleb_uleb]
  simp only [Option.bind_some]
  exact readRuns_groupRuns (fun l hl => hvalid l (List.mem_of_mem_drop hl)) body

/-! ## Places -/

section Filter

variable {α : Type} {p : α → Bool} {xs : List α} {a b : α}

/-- Where an element is among those with the property. -/
theorem getElem?_filter (h : xs[i]? = some a) (hp : p a = true) : (xs.filter p)[(xs.take i).countP p]? = some a := by
  have hlt : i < xs.length := (List.getElem?_eq_some_iff.mp h).1
  have hsplit : xs.filter p = (xs.take i).filter p ++ a :: (xs.drop (i + 1)).filter p := by
    conv_lhs => rw [← List.take_append_drop i xs, List.filter_append, List.drop_eq_getElem_cons hlt]
    rw [List.filter_cons_of_pos]
    · rw [(List.getElem?_eq_some_iff.mp h).2]
    · rw [(List.getElem?_eq_some_iff.mp h).2]
      exact hp
  rw [hsplit, List.countP_eq_length_filter, List.getElem?_append_right (le_refl _), Nat.sub_self]
  rfl

/-- Where an element with the property comes from. -/
theorem exists_of_getElem?_filter (h : (xs.filter p)[r]? = some a) :
    ∃ i, xs[i]? = some a ∧ p a = true ∧ (xs.take i).countP p = r := by
  induction xs generalizing r with
  | nil => cases h
  | cons x xs ih =>
    by_cases hx : p x = true
    · rw [List.filter_cons_of_pos hx] at h
      cases r with
      | zero =>
        obtain rfl : x = a := by simpa using h
        exact ⟨0, rfl, hx, rfl⟩
      | succ r =>
        obtain ⟨i, hi, hp, hcount⟩ := ih (r := r) (by simpa using h)
        refine ⟨i + 1, by simpa using hi, hp, ?_⟩
        rw [List.take_succ_cons, List.countP_cons_of_pos hx, hcount]
    · rw [List.filter_cons_of_neg hx] at h
      obtain ⟨i, hi, hp, hcount⟩ := ih h
      refine ⟨i + 1, by simpa using hi, hp, ?_⟩
      rw [List.take_succ_cons, List.countP_cons_of_neg hx, hcount]

/-- An element with the property makes the count after it greater. -/
theorem countP_take_lt (h : xs[i]? = some a) (hp : p a = true) (hij : i < j) :
    (xs.take i).countP p < (xs.take j).countP p := by
  have hnext : (xs.take (i + 1)).countP p = (xs.take i).countP p + 1 := by
    rw [List.take_add_one, h, List.countP_append]
    simp [hp]
  have hmono : (xs.take (i + 1)).countP p ≤ (xs.take j).countP p :=
    (List.take_sublist_take_left hij).countP_le
  omega

/-- The elements with the property and those without. -/
theorem countP_take_add (xs : List α) (p : α → Bool) (hi : i ≤ xs.length) :
    (xs.take i).countP p + (xs.take i).countP (fun a => !p a) = i := by
  have h := List.length_eq_countP_add_countP (p := p) (l := xs.take i)
  have hneg : (fun a => decide (¬ p a = true)) = fun a => !p a := by
    funext a
    cases p a <;> rfl
  rw [List.length_take_of_le hi, hneg] at h
  exact h.symm

end Filter

/-- The number of an entry among all, the parameters before the locals. -/
def number (l : List Decl) (i : ℕ) (d : Decl) : ℕ :=
  if d.isParam then (l.take i).countP Decl.isParam
  else (paramsOf l).length + (l.take i).countP fun d => !d.isParam

theorem length_paramsOf (l : List Decl) : (paramsOf l).length = (l.take l.length).countP Decl.isParam := by
  unfold paramsOf
  rw [List.take_length, List.countP_eq_length_filter]

/-- Parameters have smaller numbers than locals. -/
theorem number_param_lt (hd : l[i]? = some d) (hp : d.isParam = true) : number l i d < (paramsOf l).length := by
  have hlt : i < l.length := (List.getElem?_eq_some_iff.mp hd).1
  unfold number
  rw [if_pos hp, length_paramsOf]
  exact countP_take_lt hd hp hlt

theorem le_number_local (hp : d.isParam = false) : (paramsOf l).length ≤ number l i d := by
  unfold number
  rw [if_neg (by rw [hp]; exact Bool.false_ne_true)]
  exact Nat.le_add_right _ _

/-- Among parameters, and among locals, the numbers grow. -/
theorem number_lt (hd : l[i]? = some d) (hkind : d.isParam = e.isParam) (hij : i < j) :
    number l i d < number l j e := by
  unfold number
  rw [← hkind]
  by_cases hp : d.isParam = true
  · rw [if_pos hp, if_pos hp]
    exact countP_take_lt hd hp hij
  · rw [if_neg hp, if_neg hp]
    have hlocal : (!d.isParam) = true := by simpa using hp
    exact Nat.add_lt_add_left (countP_take_lt (p := fun d : Decl => !d.isParam) hd hlocal hij) _

/-- A number belongs to one entry. -/
theorem number_inj (hd : l[i]? = some d) (he : l[j]? = some e) (h : number l i d = number l j e) : i = j := by
  by_cases hkind : d.isParam = e.isParam
  · rcases Nat.lt_trichotomy i j with hij | hij | hij
    · have hlt := number_lt hd hkind hij
      omega
    · exact hij
    · have hlt := number_lt he hkind.symm hij
      omega
  · cases hp : d.isParam with
    | true =>
      have hlocal : e.isParam = false := by
        cases hq : e.isParam with
        | true => exact absurd (hp.trans hq.symm) hkind
        | false => rfl
      have hlt := number_param_lt hd hp
      have hle := le_number_local (l := l) (i := j) hlocal
      omega
    | false =>
      have hparam : e.isParam = true := by
        cases hq : e.isParam with
        | true => rfl
        | false => exact absurd (hp.trans hq.symm) hkind
      have hlt := number_param_lt he hparam
      have hle := le_number_local (l := l) (i := i) hp
      omega

/-- An entry is at its number if no parameter is after a local, as far as it can tell. -/
theorem number_eq (hd : l[i]? = some d)
    (horder : ∀ j e, l[j]? = some e → (j < i → d.isParam = true → e.isParam = true) ∧
      (i < j → d.isParam = false → e.isParam = false)) : number l i d = i := by
  have hlt : i < l.length := (List.getElem?_eq_some_iff.mp hd).1
  have hsum := countP_take_add l Decl.isParam (Nat.le_of_lt hlt)
  unfold number
  cases hp : d.isParam with
  | true =>
    have hall : (l.take i).countP Decl.isParam = (l.take i).length := by
      rw [List.countP_eq_length]
      intro e he
      obtain ⟨j, hj⟩ := List.getElem?_of_mem he
      rw [List.getElem?_take] at hj
      split at hj
      · exact (horder j e hj).1 ‹_› hp
      · cases hj
    rw [if_pos rfl, hall, List.length_take_of_le (Nat.le_of_lt hlt)]
  | false =>
    have hnone : (l.drop i).countP Decl.isParam = 0 := by
      rw [List.countP_eq_zero]
      intro e he
      obtain ⟨j, hj⟩ := List.getElem?_of_mem he
      rw [List.getElem?_drop] at hj
      cases j with
      | zero =>
        rw [Nat.add_zero, hd] at hj
        rw [← Option.some.inj hj, hp]
        exact Bool.false_ne_true
      | succ j =>
        rw [(horder (i + (j + 1)) e hj).2 (by omega) hp]
        exact Bool.false_ne_true
    have hparams : (paramsOf l).length = (l.take i).countP Decl.isParam := by
      have hsplit : l.countP Decl.isParam = (l.take i).countP Decl.isParam + (l.drop i).countP Decl.isParam := by
        rw [← List.countP_append, List.take_append_drop]
      unfold paramsOf
      rw [← List.countP_eq_length_filter, hsplit, hnone]
      rfl
    rw [if_neg Bool.false_ne_true, hparams]
    exact hsum

/-- A number that is too small or too great shows that the entry is misplaced. -/
theorem number_ne (hd : l[i]? = some d) (he : l[j]? = some e) (hij : i < j) (hlocal : d.isParam = false)
    (hparam : e.isParam = true) : number l i d ≠ i ∧ number l j e ≠ j := by
  have hilt : i < l.length := (List.getElem?_eq_some_iff.mp hd).1
  have hjlt : j < l.length := (List.getElem?_eq_some_iff.mp he).1
  have hlocal' : (!d.isParam) = true := by rw [hlocal]; rfl
  have hi := countP_take_add l Decl.isParam (Nat.le_of_lt hilt)
  have hj := countP_take_add l Decl.isParam (Nat.le_of_lt hjlt)
  constructor
  · have hmore := countP_take_lt he hparam hjlt
    have hmono : (l.take i).countP Decl.isParam ≤ (l.take j).countP Decl.isParam :=
      (List.take_sublist_take_left (Nat.le_of_lt hij)).countP_le
    unfold number
    rw [if_neg (by rw [hlocal]; exact Bool.false_ne_true), length_paramsOf]
    omega
  · have hsome := countP_take_lt (p := fun d : Decl => !d.isParam) hd hlocal' hij
    unfold number
    rw [if_pos hparam]
    omega

/-! ## Names -/

/-- A declared name is an identifier. -/
theorem name_of_declared (hd : d ∈ layout c fn) (hs : d.name = some s) : s.toList.head? = some '$' := by
  have hident : ∀ k : SExpr, k.ident = some s → s.toList.head? = some '$' := by
    intro k hk
    unfold SExpr.ident at hk
    split at hk
    · split at hk
      · cases hk
        assumption
      · cases hk
    · cases hk
  have hgroup : ∀ isParam ks, d ∈ groupDecls c isParam ks → s.toList.head? = some '$' := by
    intro isParam ks hmem
    unfold groupDecls at hmem
    split at hmem
    · cases hmem
    · split at hmem
      case h_1 name hk =>
        rw [List.mem_singleton.mp hmem] at hs
        cases hs
        exact hident _ hk
      case h_2 =>
        obtain ⟨k, -, rfl⟩ := List.mem_map.mp hmem
        cases hs
  unfold layout at hd
  rcases List.mem_append.mp hd with hd | hd
  · obtain ⟨k, -, hk⟩ := List.mem_flatMap.mp hd
    unfold nodeDecls at hk
    split at hk
    · exact hgroup true _ hk
    · split at hk
      · exact hgroup false _ hk
      · cases hk
  · unfold typeParams at hd
    split at hd
    · cases hd
    · cases htype : typeUse c (header fn) with
      | none =>
        rw [htype] at hd
        cases hd
      | some r =>
        rw [htype, Option.map_some, Option.getD_some] at hd
        rw [(List.mem_replicate.mp hd).2] at hs
        cases hs

/-- A name resolves to the first entry that has it. -/
theorem resolveLocal_iff {isString : Bool} (hlocals : out.locals = l.map Decl.entry) (hs : s.toList.head? = some '$') :
    resolveLocal out (.atom s isString) = .ok r ↔
      (∃ d, l[r]? = some d ∧ d.name = some s) ∧ ∀ (j : ℕ) d, j < r → l[j]? = some d → d.name ≠ some s := by
  have hfind : resolveLocal out (.atom s isString) = .ok r ↔
      (l.findIdx? fun d => decide (d.name = some s)) = some r := by
    unfold resolveLocal
    simp only [SExpr.atom?]
    rw [if_pos hs, hlocals, List.findIdx?_map]
    have hcomp : ((fun l : Local => decide (l.name = some s)) ∘ Decl.entry) = fun d => decide (d.name = some s) := rfl
    rw [hcomp]
    cases (l.findIdx? fun d => decide (d.name = some s)) with
    | none => exact iff_of_false (fun h => by cases h) fun h => by cases h
    | some i => exact ⟨fun h => congrArg some (Except.ok.inj h), fun h => congrArg Except.ok (Option.some.inj h)⟩
  rw [hfind, List.findIdx?_eq_some_iff_getElem]
  constructor
  · rintro ⟨hlt, hname, hfirst⟩
    refine ⟨⟨l[r], List.getElem?_eq_getElem hlt, of_decide_eq_true hname⟩, fun j d hj hd hname' => ?_⟩
    obtain ⟨hjlt, rfl⟩ := List.getElem?_eq_some_iff.mp hd
    exact hfirst j hj (decide_eq_true hname')
  · rintro ⟨⟨d, hd, hname⟩, hfirst⟩
    obtain ⟨hlt, rfl⟩ := List.getElem?_eq_some_iff.mp hd
    refine ⟨hlt, decide_eq_true hname, fun j hj hname' => ?_⟩
    exact hfirst j _ hj (List.getElem?_eq_getElem (by omega)) (of_decide_eq_true hname')

/-- All names resolve to the numbers of their entries just if no name is there twice and none is misplaced. -/
theorem resolves_iff (hlocals : out.locals = l.map Decl.entry)
    (hident : ∀ d ∈ l, ∀ s, d.name = some s → s.toList.head? = some '$') :
    (∀ (i : ℕ) d s isString, l[i]? = some d → d.name = some s →
        resolveLocal out (.atom s isString) = .ok (number l i d)) ↔
      (∀ (i j : ℕ) (d e : Decl) s, l[i]? = some d → l[j]? = some e → d.name = some s → e.name = some s → i = j) ∧
        ∀ (i j : ℕ) (d e : Decl), i < j → l[i]? = some d → l[j]? = some e → d.isParam = false → e.isParam = true →
          d.name = none ∧ e.name = none := by
  constructor
  · intro h
    have hdistinct : ∀ (i j : ℕ) (d e : Decl) s, l[i]? = some d → l[j]? = some e → d.name = some s →
        e.name = some s → i = j := by
      intro i j d e s hd he hds hes
      have heq := (h i d s false hd hds).symm.trans (h j e s false he hes)
      exact number_inj hd he (Except.ok.inj heq)
    -- the entry at the number of a named one is that one
    have hfix : ∀ (i : ℕ) d s, l[i]? = some d → d.name = some s → number l i d = i := by
      intro i d s hd hs
      have hmem := List.mem_of_getElem? hd
      obtain ⟨⟨e, he, hes⟩, -⟩ := (resolveLocal_iff hlocals (hident d hmem s hs)).mp (h i d s false hd hs)
      exact hdistinct _ i e d s he hd hes hs
    refine ⟨hdistinct, fun i j d e hij hd he hlocal hparam => ?_⟩
    obtain ⟨hi, hj⟩ := number_ne hd he hij hlocal hparam
    constructor
    · by_contra hname
      obtain ⟨s, hs⟩ := Option.ne_none_iff_exists'.mp hname
      exact hi (hfix i d s hd hs)
    · by_contra hname
      obtain ⟨s, hs⟩ := Option.ne_none_iff_exists'.mp hname
      exact hj (hfix j e s he hs)
  · rintro ⟨hdistinct, horder⟩ i d s isString hd hs
    have hmem := List.mem_of_getElem? hd
    have hnumber : number l i d = i := by
      apply number_eq hd
      intro j e he
      constructor
      · intro hj hparam
        by_contra hlocal
        have hnone := (horder j i e d hj he hd (Bool.eq_false_iff.mpr hlocal) hparam).2
        rw [hs] at hnone
        cases hnone
      · intro hj hlocal
        by_contra hparam
        have hnone := (horder i j d e hj hd he hlocal (Bool.not_eq_false _ ▸ hparam)).1
        rw [hs] at hnone
        cases hnone
    rw [hnumber, resolveLocal_iff hlocals (hident d hmem s hs)]
    refine ⟨⟨d, hd, hs⟩, fun j e hj he hes => ?_⟩
    have hij := hdistinct i j d e s hd he hs hes
    omega

/-- The numbers of the entries, said of parameters and locals. -/
theorem numbered_iff : Numbered out l ↔
    (∀ (i : ℕ) d s isString, l[i]? = some d → d.name = some s →
        resolveLocal out (.atom s isString) = .ok (number l i d)) ∧
      ∀ body, readCode (encodeCode out body) = some ((localsOf l).map Decl.type, body) := by
  constructor
  · rintro ⟨hparam, hlocal, hcode⟩
    refine ⟨fun i d s isString hd hs => ?_, hcode⟩
    unfold number
    cases hp : d.isParam with
    | true => exact hparam _ d s isString (getElem?_filter hd hp) hs
    | false =>
      exact hlocal _ d s isString (getElem?_filter (p := fun d : Decl => !d.isParam) hd (by rw [hp]; rfl)) hs
  · rintro ⟨hnames, hcode⟩
    refine ⟨fun i d s isString hd hs => ?_, fun j d s isString hd hs => ?_, hcode⟩
    · obtain ⟨k, hk, hp, rfl⟩ := exists_of_getElem?_filter hd
      have h := hnames k d s isString hk hs
      unfold number at h
      rw [if_pos hp] at h
      exact h
    · obtain ⟨k, hk, hp, rfl⟩ := exists_of_getElem?_filter hd
      have h := hnames k d s isString hk hs
      unfold number at h
      rw [if_neg (by simpa using hp)] at h
      exact h

/-- Parameters and locals of a function that the assembler accepts have the right numbers, and its entry in the code
section the right types, just if the order in which they are met does no harm. -/
theorem func_locals_iff (h : parseFunc c fn = .ok out) : Numbered out (layout c fn) ↔ InPlace (layout c fn) := by
  obtain ⟨hlocals, hn, hvalid⟩ := parseFunc_ok h
  have hvaltypes : ∀ l ∈ out.locals, IsValtype l.type := by
    intro l hl
    rcases hvalid l hl with heq | ⟨n, hn⟩
    · rw [heq]
      exact isValtype_single (by decide)
    · exact valtypeBytes_ok hn
  have hcode : ∀ body, readCode (encodeCode out body) =
      some (((layout c fn).drop (paramsOf (layout c fn)).length).map Decl.type, body) := by
    intro body
    rw [readCode_encodeCode hvaltypes, hlocals, hn, ← List.map_drop, List.map_map]
    rfl
  have htypes : (∀ body, readCode (encodeCode out body) = some ((localsOf (layout c fn)).map Decl.type, body)) ↔
      ((layout c fn).drop (paramsOf (layout c fn)).length).map Decl.type = (localsOf (layout c fn)).map Decl.type := by
    constructor
    · intro h
      have heq := (hcode []).symm.trans (h [])
      exact congrArg Prod.fst (Option.some.inj heq)
    · intro heq body
      rw [hcode, heq]
  rw [numbered_iff, resolves_iff hlocals fun d hd s hs => name_of_declared hd hs, htypes]
  constructor
  · rintro ⟨⟨hdistinct, horder⟩, htypes⟩
    exact ⟨hdistinct, horder, htypes⟩
  · rintro ⟨hdistinct, horder, htypes⟩
    exact ⟨⟨hdistinct, horder⟩, htypes⟩

/-- `(func (param $a i32) (local $b i64))`. -/
theorem func_locals_paramAndLocal :
    let fn := SExpr.list [.atom "func" false, .list [.atom "param" false, .atom "$a" false, .atom "i32" false],
      .list [.atom "local" false, .atom "$b" false, .atom "i64" false]]
    ∃ out, parseFunc ⟨[]⟩ fn = .ok out ∧ (Numbered out (layout ⟨[]⟩ fn) ↔ InPlace (layout ⟨[]⟩ fn)) :=
  ⟨_, rfl, func_locals_iff rfl⟩

/-- After `(type $f (func (param i32 i64)))`, the local of `(func (type $f) (local $a f64))` gets the number 0. -/
theorem func_locals_shifted : ¬ ∀ c fn out, parseFunc c fn = .ok out → Numbered out (layout c fn) := by
  intro h
  have hnumbered := h
    ⟨[⟨some "$f", .list [.atom "func" false, .list [.atom "param" false, .atom "i32" false, .atom "i64" false]]⟩]⟩
    (.list [.atom "func" false, .list [.atom "type" false, .atom "$f" false],
      .list [.atom "local" false, .atom "$a" false, .atom "f64" false]]) _ rfl
  have hzero := hnumbered.local_ 0 ⟨false, some "$a", [0x7c]⟩ "$a" false rfl rfl
  have hactual := (by rfl : _ = Except.ok 0).symm.trans hzero
  cases hactual

/-! ## When the order does no harm -/

end Lua2wasm.Wat
