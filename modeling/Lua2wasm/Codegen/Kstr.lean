import Lua2wasm.Codegen.StrPool
import Lua2wasm.Table.Value

/-!
# Constant strings

`kstr_name`, `kstr_expr` and `emit_kstr_globals` of `src/codegen/strings.c`. A constant of at most `KSTR_MAX` bytes is
read from a global that is named by the place of its bytes in one pool; a longer one is built from the place of its
bytes in another, the data segment.

`Denotes` says what an expression that was handed out stands for. It holds in every later state (`Denotes.later`), and
`constant_strings` draws from it that two short constants share a global just if they are equal, and that what is
declared and what is in the segment is what was asked for.
-/

namespace Lua2wasm.Codegen

/-- `KSTR_MAX`. -/
def kstrMax : ℕ := 256

/-- The bytes of a name of the source. -/
def nameBytes (s : String) : List UInt8 := s.toList.map fun c => c.toNat.toUInt8

/-- `MKEYS`: globals of the prelude and the strings that they hold. -/
def mkeys : List (String × String) := [
  ("$g_mkey_index", "__index"), ("$g_mkey_newindex", "__newindex"), ("$g_mkey_add", "__add"),
  ("$g_mkey_sub", "__sub"), ("$g_mkey_mul", "__mul"), ("$g_mkey_div", "__div"), ("$g_mkey_mod", "__mod"),
  ("$g_mkey_pow", "__pow"), ("$g_mkey_unm", "__unm"), ("$g_mkey_idiv", "__idiv"), ("$g_mkey_band", "__band"),
  ("$g_mkey_bor", "__bor"), ("$g_mkey_bxor", "__bxor"), ("$g_mkey_shl", "__shl"), ("$g_mkey_shr", "__shr"),
  ("$g_mkey_bnot", "__bnot"), ("$g_mkey_concat", "__concat"), ("$g_mkey_len", "__len"),
  ("$g_mkey_pairs", "__pairs"), ("$g_mkey_eq", "__eq"), ("$g_mkey_lt", "__lt"), ("$g_mkey_le", "__le"),
  ("$g_mkey_call", "__call"), ("$g_mkey_close", "__close"), ("$g_mkey_tostring", "__tostring"),
  ("$g_mkey_metatable", "__metatable"), ("$g_mkey_name", "__name"), ("$g_tname_nil", "nil"),
  ("$g_tname_boolean", "boolean"), ("$g_tname_number", "number"), ("$g_tname_string", "string"),
  ("$g_tname_table", "table"), ("$g_tname_function", "function"), ("$g_key_n", "n")]

/-- The part of `CG` that constant strings are kept in. -/
structure Consts where
  strs : StrPool
  kstrs : StrPool
  kstrList : List StrRef

/-- The name of the global for a place in the pool. -/
def kstrGlobal (r : StrRef) : String := "$kstr_" ++ r.offset.repr ++ "_" ++ r.len.repr

/-- `kstr_name`. -/
def kstrName (bits : ℕ) (c : Consts) (bytes : List UInt8) : Option (String × Consts) :=
  if bytes.length = 0 then some ("$g_empty_str", c)
  else match mkeys.find? fun m => nameBytes m.2 = bytes with
  | some m => some (m.1, c)
  | none => do
    let (r, kstrs) ← strpoolAdd bits c.kstrs bytes
    some (kstrGlobal r, { c with kstrs, kstrList := if r ∈ c.kstrList then c.kstrList else c.kstrList ++ [r] })

/-- An expression for a constant string: it reads a global, or it builds the string from the data segment. -/
inductive ConstExpr
  | global (name : String)
  | newData (r : StrRef)
  deriving DecidableEq

/-- `kstr_expr`. -/
def kstrExpr (bits : ℕ) (c : Consts) (bytes : List UInt8) : Option (ConstExpr × Consts) :=
  if bytes.length ≤ kstrMax then do
    let (name, c) ← kstrName bits c bytes
    some (.global name, c)
  else do
    let (r, strs) ← strpoolAdd bits c.strs bytes
    some (.newData r, { c with strs })

/-- `kstr_hash`. -/
def kstrHash (bytes : List UInt8) : UInt32 :=
  let h := bytes.foldl (fun h b => (h ^^^ b.toUInt32) * 16777619) 2166136261
  if h = 0 then 1 else h

/-- A global that is declared: `emit_global_const_str`. -/
structure ConstGlobal where
  name : String
  bytes : List UInt8
  hash : UInt32

/-- `emit_global_const_str`. -/
def emitGlobalConstStr (name : String) (bytes : List UInt8) : ConstGlobal := ⟨name, bytes, kstrHash bytes⟩

/-- `emit_kstr_globals`. -/
def emitKstrGlobals (c : Consts) : List ConstGlobal :=
  c.kstrList.map fun r => emitGlobalConstStr (kstrGlobal r) (c.kstrs.run r.offset r.len)

/-- `emit_mkey_globals`. -/
def emitMkeyGlobals : List ConstGlobal := mkeys.map fun m => emitGlobalConstStr m.1 (nameBytes m.2)

/-- The constants before code is generated: the literals of the runtime are at the front of the data segment. -/
def startConsts (bits : ℕ) (literals : List UInt8) : Option Consts := do
  let (_, strs) ← strpoolAdd bits .empty literals
  some ⟨strs, .empty, []⟩

/-- The constants of a program, registered one after the other. -/
def registerAll (bits : ℕ) : Consts → List (List UInt8) → Option (List ConstExpr × Consts)
  | c, [] => some ([], c)
  | c, s :: ss => do
    let (x, c) ← kstrExpr bits c s
    let (xs, c) ← registerAll bits c ss
    some (x :: xs, c)

/-! ## Names -/

section

variable {bits : ℕ} {c c' : Consts} {s t : List UInt8} {r r' : StrRef} {x y : ConstExpr}

theorem toDigits_inj {m n : ℕ} : Nat.toDigits 10 m = Nat.toDigits 10 n ↔ m = n := by
  constructor
  · intro h
    rw [← @Nat.ofDigitChars_ten_toDigits m, h, Nat.ofDigitChars_ten_toDigits]
  · rintro rfl
    rfl

/-- A number ends where the underscore is. -/
theorem takeWhile_toDigits (n : ℕ) (rest : List Char) :
    (Nat.toDigits 10 n ++ '_' :: rest).takeWhile Char.isDigit = Nat.toDigits 10 n := by
  rw [List.takeWhile_append_of_pos, List.takeWhile_cons_of_neg (by decide), List.append_nil]
  intro c hc
  exact Nat.isDigit_of_mem_toDigits (by decide) (by decide) hc

/-- The names of two places are different. -/
theorem kstrGlobal_inj : kstrGlobal r = kstrGlobal r' ↔ r = r' := by
  constructor
  · intro h
    have hlist := congrArg String.toList h
    unfold kstrGlobal at hlist
    simp only [String.toList_append, Nat.toList_repr, List.append_assoc] at hlist
    rw [List.append_cancel_left_eq] at hlist
    have hoffset := congrArg (List.takeWhile Char.isDigit) hlist
    change (Nat.toDigits 10 r.offset ++ '_' :: Nat.toDigits 10 r.len).takeWhile Char.isDigit =
      (Nat.toDigits 10 r'.offset ++ '_' :: Nat.toDigits 10 r'.len).takeWhile Char.isDigit at hoffset
    rw [takeWhile_toDigits, takeWhile_toDigits, toDigits_inj] at hoffset
    rw [hoffset, List.append_cancel_left_eq, List.append_cancel_left_eq, toDigits_inj] at hlist
    exact congrArg₂ StrRef.mk hoffset hlist
  · rintro rfl
    rfl

/-- The globals of the prelude have names of their own. -/
theorem kstrGlobal_ne {g : String} (hg : g.toList.take 2 = ['$', 'g']) : kstrGlobal r ≠ g := by
  intro h
  have hlist := congrArg (fun s : String => s.toList.take 2) h
  rw [hg] at hlist
  unfold kstrGlobal at hlist
  simp only [String.toList_append, List.append_assoc] at hlist
  have hk : ("$kstr_".toList ++ (r.offset.repr.toList ++ ("_".toList ++ r.len.repr.toList))).take 2 = ['$', 'k'] := rfl
  rw [hk] at hlist
  exact absurd hlist (by decide)

theorem mkeys_prelude : ∀ m ∈ mkeys, m.1.toList.take 2 = ['$', 'g'] ∧ m.1 ≠ "$g_empty_str" := by
  have hstart : ∀ m ∈ mkeys, ∃ l, m.1 = String.ofList ('$' :: 'g' :: l) := by
    intro m hm
    fin_cases hm <;> exact ⟨_, rfl⟩
  have hempty : "$g_empty_str" ∉ mkeys.map Prod.fst := by simp [mkeys]
  intro m hm
  obtain ⟨l, hl⟩ := hstart m hm
  refine ⟨by rw [hl, String.toList_ofList]; rfl, fun h => hempty ?_⟩
  exact List.mem_map.mpr ⟨m, hm, h⟩

theorem mkeys_names_nodup : (mkeys.map Prod.fst).Nodup := by
  simp [mkeys]

/-- The strings of the prelude are different ones, short and not empty. -/
theorem mkeys_bytes : (mkeys.map fun m => nameBytes m.2).Nodup ∧
    ∀ m ∈ mkeys, nameBytes m.2 ≠ [] ∧ (nameBytes m.2).length ≤ kstrMax := by
  decide

theorem mkeys_inj : ∀ m ∈ mkeys, ∀ m' ∈ mkeys, (m.1 = m'.1 ↔ m = m') ∧ (nameBytes m.2 = nameBytes m'.2 → m = m') := by
  intro m hm m' hm'
  constructor
  · exact ⟨fun h => List.inj_on_of_nodup_map mkeys_names_nodup hm hm' h, fun h => h ▸ rfl⟩
  · exact fun h => List.inj_on_of_nodup_map mkeys_bytes.1 hm hm' h

theorem mkeys_ne_nil : ∀ m ∈ mkeys, nameBytes m.2 ≠ [] := fun m hm => (mkeys_bytes.2 m hm).1

/-! ## What an expression stands for -/

/-- The expression is one for the string `s`. -/
inductive Denotes (c : Consts) (s : List UInt8) : ConstExpr → Prop
  | empty (hs : s = []) : Denotes c s (.global "$g_empty_str")
  | key (m : String × String) (hm : m ∈ mkeys) (hs : nameBytes m.2 = s) : Denotes c s (.global m.1)
  | kstr (e : StrIdxSlot) (hne : s ≠ []) (hkey : ∀ m ∈ mkeys, nameBytes m.2 ≠ s) (hlen : s.length ≤ kstrMax)
      (hidx : some e ∈ c.kstrs.idx) (hmem : ⟨e.offset, e.len⟩ ∈ c.kstrList) (hold : Holds c.kstrs s ⟨e.offset, e.len⟩) :
      Denotes c s (.global (kstrGlobal ⟨e.offset, e.len⟩))
  | data (r : StrRef) (hlen : kstrMax < s.length) (hold : Holds c.strs s r) : Denotes c s (.newData r)

/-- What holds of the constants whenever code is generated. -/
structure Consts.Ok (bits : ℕ) (c : Consts) : Prop where
  strs : c.strs.Ok bits
  kstrs : c.kstrs.Ok bits
  nodup : c.kstrList.Nodup

/-- The constants `c'` are those of a later time than `c`. -/
structure Consts.Later (c c' : Consts) : Prop where
  strs : c.strs.bytes <+: c'.strs.bytes
  kstrs : c.kstrs.bytes <+: c'.kstrs.bytes
  idx : ∀ e, some e ∈ c.kstrs.idx → some e ∈ c'.kstrs.idx
  list : ∀ r ∈ c.kstrList, r ∈ c'.kstrList

theorem Consts.Later.refl (c : Consts) : c.Later c :=
  ⟨List.prefix_rfl, List.prefix_rfl, fun _ he => he, fun _ hr => hr⟩

theorem Consts.Later.trans {c'' : Consts} (h : c.Later c') (h' : c'.Later c'') : c.Later c'' :=
  ⟨h.strs.trans h'.strs, h.kstrs.trans h'.kstrs, fun e he => h'.idx e (h.idx e he), fun r hr => h'.list r (h.list r hr)⟩

theorem Denotes.later (h : Denotes c s x) (hl : c.Later c') : Denotes c' s x := by
  cases h with
  | empty hs => exact .empty hs
  | key m hm hs => exact .key m hm hs
  | kstr e hne hkey hlen hidx hmem hold =>
    exact .kstr e hne hkey hlen (hl.idx e hidx) (hl.list _ hmem) (hold.later hl.kstrs)
  | data r hlen hold => exact .data r hlen (hold.later hl.strs)

theorem length_le_of_mkeys {m : String × String} (hm : m ∈ mkeys) : (nameBytes m.2).length ≤ kstrMax :=
  (mkeys_bytes.2 m hm).2

/-- A short string has one global. -/
theorem Denotes.unique (hok : c.Ok bits) (hx : Denotes c s x) (hy : Denotes c s y) (hlen : s.length ≤ kstrMax) :
    x = y := by
  cases hx with
  | empty hs =>
    cases hy with
    | empty _ => rfl
    | key m hm hs' => exact absurd (hs'.trans hs) (mkeys_ne_nil m hm)
    | kstr e hne => exact absurd hs hne
    | data r hlong => omega
  | key m hm hs =>
    cases hy with
    | empty hs' => exact absurd (hs.trans hs') (mkeys_ne_nil m hm)
    | key m' hm' hs' => rw [(mkeys_inj m hm m' hm').2 (hs.trans hs'.symm)]
    | kstr e _ hkey => exact absurd hs (hkey m hm)
    | data r hlong => omega
  | kstr e hne hkey _ hidx _ hold =>
    cases hy with
    | empty hs => exact absurd hs hne
    | key m hm hs => exact absurd hs (hkey m hm)
    | kstr e' _ _ _ hidx' _ hold' =>
      rw [hok.kstrs.unique e e' hidx hidx' (hold.run.trans hold'.run.symm)]
    | data r hlong => omega
  | data r hlong => omega

/-- A global is for one string. -/
theorem Denotes.string_eq {g : String} (hs : Denotes c s (.global g)) (ht : Denotes c t (.global g)) : s = t := by
  obtain ⟨y, hy⟩ : ∃ y, y = ConstExpr.global g := ⟨_, rfl⟩
  rw [← hy] at ht
  cases hs with
  | empty hs =>
    cases ht with
    | empty ht => rw [hs, ht]
    | key m hm _ => exact absurd (ConstExpr.global.inj hy) (mkeys_prelude m hm).2
    | kstr e => exact absurd (ConstExpr.global.inj hy) (kstrGlobal_ne (by decide))
    | data r => exact absurd hy (by simp)
  | key m hm hs =>
    cases ht with
    | empty _ => exact absurd (ConstExpr.global.inj hy).symm (mkeys_prelude m hm).2
    | key m' hm' ht => rw [← hs, ← ht, ((mkeys_inj m' hm' m hm).1).mp (ConstExpr.global.inj hy)]
    | kstr e => exact absurd (ConstExpr.global.inj hy) (kstrGlobal_ne (mkeys_prelude m hm).1)
    | data r => exact absurd hy (by simp)
  | kstr e _ _ _ _ _ hold =>
    cases ht with
    | empty _ => exact absurd (ConstExpr.global.inj hy).symm (kstrGlobal_ne (by decide))
    | key m hm _ => exact absurd (ConstExpr.global.inj hy).symm (kstrGlobal_ne (mkeys_prelude m hm).1)
    | kstr e' _ _ _ _ _ hold' =>
      have hr := kstrGlobal_inj.mp (ConstExpr.global.inj hy)
      rw [← hold.run, ← hold'.run, hr]
    | data r => exact absurd hy (by simp)

/-- Two short strings have the same global just if they are equal. -/
theorem Denotes.eq_iff (hok : c.Ok bits) (hx : Denotes c s x) (hy : Denotes c t y) (hs : s.length ≤ kstrMax)
    (ht : t.length ≤ kstrMax) : x = y ↔ s = t := by
  constructor
  · rintro rfl
    cases x with
    | global g => exact hx.string_eq hy
    | newData r =>
      cases hx with
      | data _ hlong => omega
  · rintro rfl
    exact hx.unique hok hy hs

/-! ## Registering -/

theorem kstrName_spec (h : c.Ok bits) (hlen : s.length ≤ kstrMax) :
    ∃ g c', kstrName bits c s = some (g, c') ∧ c'.Ok bits ∧ c.Later c' ∧ Denotes c' s (.global g) := by
  unfold kstrName
  by_cases hzero : s.length = 0
  · rw [if_pos hzero]
    exact ⟨_, c, rfl, h, .refl c, .empty (List.length_eq_zero_iff.mp hzero)⟩
  rw [if_neg hzero]
  have hne : s ≠ [] := fun h => hzero (List.length_eq_zero_iff.mpr h)
  cases hfind : mkeys.find? fun m => nameBytes m.2 = s with
  | some m =>
    have hkey := List.find?_some hfind
    exact ⟨m.1, c, rfl, h, .refl c, .key m (List.mem_of_find?_eq_some hfind) (of_decide_eq_true hkey)⟩
  | none =>
    have hnone : ∀ m ∈ mkeys, nameBytes m.2 ≠ s := by
      intro m hm
      simpa using List.find?_eq_none.mp hfind m hm
    obtain ⟨r, kstrs, hadd, hadded⟩ := strpoolAdd_spec h.kstrs s
    obtain ⟨e, he, hoffset, hlen'⟩ := hadded.entry hne
    have hr : r = ⟨e.offset, e.len⟩ := by
      rw [hoffset, hlen']
    have hlist : r ∈ (if r ∈ c.kstrList then c.kstrList else c.kstrList ++ [r]) ∧
        (if r ∈ c.kstrList then c.kstrList else c.kstrList ++ [r]).Nodup ∧
        ∀ r' ∈ c.kstrList, r' ∈ (if r ∈ c.kstrList then c.kstrList else c.kstrList ++ [r]) := by
      split_ifs with hmem
      · exact ⟨hmem, h.nodup, fun _ hr' => hr'⟩
      · refine ⟨by simp, ?_, fun _ hr' => List.mem_append_left _ hr'⟩
        rw [List.nodup_append]
        refine ⟨h.nodup, List.nodup_singleton r, ?_⟩
        rintro a ha b hb rfl
        exact hmem (List.mem_singleton.mp hb ▸ ha)
    rw [hadd, Option.bind_eq_bind, Option.bind_some]
    refine ⟨_, _, rfl, ⟨h.strs, hadded.ok, hlist.2.1⟩, ⟨List.prefix_rfl, hadded.keeps, hadded.mem, hlist.2.2⟩, ?_⟩
    rw [hr]
    exact .kstr e hne hnone hlen he (hr ▸ hlist.1) (hr ▸ hadded.holds)

theorem kstrExpr_spec (h : c.Ok bits) (s : List UInt8) :
    ∃ x c', kstrExpr bits c s = some (x, c') ∧ c'.Ok bits ∧ c.Later c' ∧ Denotes c' s x := by
  unfold kstrExpr
  by_cases hlen : s.length ≤ kstrMax
  · obtain ⟨g, c', hname, hok, hlater, hden⟩ := kstrName_spec h hlen
    rw [if_pos hlen, hname]
    exact ⟨_, c', rfl, hok, hlater, hden⟩
  · obtain ⟨r, strs, hadd, hadded⟩ := strpoolAdd_spec h.strs s
    rw [if_neg hlen, hadd]
    exact ⟨_, _, rfl, ⟨hadded.ok, h.kstrs, h.nodup⟩,
      ⟨hadded.keeps, List.prefix_rfl, fun _ he => he, fun _ hr => hr⟩, .data r (by omega) hadded.holds⟩

/-- All constants of a program are registered, and the expressions denote them in the end. -/
theorem registerAll_spec : ∀ (ss : List (List UInt8)) (c : Consts), c.Ok bits →
    ∃ xs c', registerAll bits c ss = some (xs, c') ∧ c'.Ok bits ∧ c.Later c' ∧ List.Forall₂ (Denotes c') ss xs := by
  intro ss
  induction ss with
  | nil =>
    intro c h
    exact ⟨[], c, rfl, h, .refl c, .nil⟩
  | cons s ss ih =>
    intro c h
    obtain ⟨x, c₁, hexpr, hok₁, hlater₁, hden⟩ := kstrExpr_spec h s
    obtain ⟨xs, c', hrest, hok, hlater, hdens⟩ := ih c₁ hok₁
    refine ⟨x :: xs, c', ?_, hok, hlater₁.trans hlater, .cons (hden.later hlater) hdens⟩
    unfold registerAll
    rw [hexpr]
    dsimp only [Option.bind_eq_bind, Option.bind_some]
    rw [hrest]
    rfl

theorem startConsts_spec (bits : ℕ) (literals : List UInt8) : ∃ c, startConsts bits literals = some c ∧ c.Ok bits := by
  obtain ⟨r, strs, hadd, hadded⟩ := @strpoolAdd_spec bits _ empty_ok literals
  unfold startConsts
  rw [hadd]
  exact ⟨_, rfl, hadded.ok, empty_ok, List.nodup_nil⟩

/-! ## The module that is emitted -/

/-- What the expression for `s` reads in the module. A global is the prelude's empty string or one that is declared
with these bytes and their hash; and a place in the data segment has the bytes. -/
def Reads (c : Consts) (s : List UInt8) : ConstExpr → Prop
  | .global g => (s = [] ∧ g = "$g_empty_str") ∨
      ∃ d ∈ emitMkeyGlobals ++ emitKstrGlobals c, d.name = g ∧ d.bytes = s ∧ d.hash = Table.strHash s
  | .newData r => r.len = s.length ∧ r.offset + r.len ≤ c.strs.bytes.length ∧ c.strs.run r.offset r.len = s

theorem Denotes.reads (h : Denotes c s x) : Reads c s x := by
  cases h with
  | empty hs => exact Or.inl ⟨hs, rfl⟩
  | key m hm hs =>
    right
    refine ⟨emitGlobalConstStr m.1 (nameBytes m.2), ?_, rfl, hs, ?_⟩
    · exact List.mem_append_left _ (List.mem_map_of_mem hm)
    · rw [← hs]
      rfl
  | kstr e hne hkey hlen hidx hmem hold =>
    right
    refine ⟨emitGlobalConstStr (kstrGlobal ⟨e.offset, e.len⟩) (c.kstrs.run e.offset e.len), ?_, rfl, hold.run, ?_⟩
    · exact List.mem_append_right _ (List.mem_map.mpr ⟨_, hmem, rfl⟩)
    · have hrun : c.kstrs.run e.offset e.len = s := hold.run
      rw [hrun]
      rfl
  | data r hlen hold => exact ⟨hold.len, hold.inside, hold.run⟩

/-- No two globals of one name are declared. -/
theorem declared_nodup (h : c.Ok bits) : ((emitMkeyGlobals ++ emitKstrGlobals c).map ConstGlobal.name).Nodup := by
  have hkstrs : (emitKstrGlobals c).map ConstGlobal.name = c.kstrList.map kstrGlobal := by
    unfold emitKstrGlobals
    rw [List.map_map]
    rfl
  have hmkeys : emitMkeyGlobals.map ConstGlobal.name = mkeys.map Prod.fst := by
    unfold emitMkeyGlobals
    rw [List.map_map]
    rfl
  rw [List.map_append, List.nodup_append]
  refine ⟨hmkeys ▸ mkeys_names_nodup, ?_, ?_⟩
  · rw [hkstrs]
    exact h.nodup.map fun r r' => kstrGlobal_inj.mp
  · rw [hkstrs, hmkeys]
    intro a ha b hb hab
    obtain ⟨m, hm, rfl⟩ := List.mem_map.mp ha
    obtain ⟨r, -, rfl⟩ := List.mem_map.mp hb
    exact kstrGlobal_ne (mkeys_prelude m hm).1 hab.symm

end

/-- Constants `ss` are registered and then others, `ts`. In the end every expression that was handed out reads its
string, two of at most `kstrMax` bytes have the same global just if they are equal, and a name of the runtime is read
from the global of the prelude. -/
theorem constant_strings (bits : ℕ) (literals : List UInt8) (ss ts : List (List UInt8)) :
    ∃ c₀ xs c₁ ys c, startConsts bits literals = some c₀ ∧ registerAll bits c₀ ss = some (xs, c₁) ∧
      registerAll bits c₁ ts = some (ys, c) ∧ List.Forall₂ (Reads c) (ss ++ ts) (xs ++ ys) ∧
      (∀ p ∈ (ss ++ ts).zip (xs ++ ys), ∀ q ∈ (ss ++ ts).zip (xs ++ ys), p.1.length ≤ kstrMax →
        q.1.length ≤ kstrMax → (p.2 = q.2 ↔ p.1 = q.1)) ∧
      (∀ p ∈ (ss ++ ts).zip (xs ++ ys), ∀ m ∈ mkeys, p.1 = nameBytes m.2 → p.2 = .global m.1) ∧
      ((emitMkeyGlobals ++ emitKstrGlobals c).map ConstGlobal.name).Nodup := by
  obtain ⟨c₀, hstart, hok₀⟩ := startConsts_spec bits literals
  obtain ⟨xs, c₁, hxs, hok₁, -, hden₁⟩ := registerAll_spec ss c₀ hok₀
  obtain ⟨ys, c, hys, hok, hlater, hden₂⟩ := registerAll_spec ts c₁ hok₁
  have hden : List.Forall₂ (Denotes c) (ss ++ ts) (xs ++ ys) :=
    List.rel_append (hden₁.imp fun _ _ h => h.later hlater) hden₂
  have hmem : ∀ p ∈ (ss ++ ts).zip (xs ++ ys), Denotes c p.1 p.2 := fun p hp => (List.forall₂_iff_zip.mp hden).2 hp
  refine ⟨c₀, xs, c₁, ys, c, hstart, hxs, hys, hden.imp fun _ _ h => h.reads, ?_, ?_, declared_nodup hok⟩
  · intro p hp q hq hplen hqlen
    exact (hmem p hp).eq_iff hok (hmem q hq) hplen hqlen
  · intro p hp m hm hs
    have hkey : Denotes c p.1 (.global m.1) := .key m hm hs.symm
    exact (hmem p hp).unique hok hkey (hs ▸ length_le_of_mkeys hm)

end Lua2wasm.Codegen
