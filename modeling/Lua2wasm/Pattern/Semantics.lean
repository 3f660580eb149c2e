import Lua2wasm.Pattern.Items
import Lua2wasm.Lib.Outcomes

/-!
# What a pattern matches

The meaning of a list of items, as the outcomes of a search with backtracking in their order (`outcomes`):
from a position of the subject, with the captures so far, to the position after the match with its captures.
A quantifier gives one outcome after the other, the longest first for `*`, `+` and `?` and the shortest first
for `-`.

What a malformed item does, and the tests of classes and of `%b`, are left to `Rules`.
-/

namespace Lua2wasm.Pattern

open Pack (chr)

/-- What can be wrong with a pattern. -/
inductive PatError
  /-- `%` at the end, with a byte of the subject left. -/
  | percent
  /-- `%` at the end, at the end of the subject. -/
  | percentAtEnd
  /-- `[` at the end. -/
  | bracket
  /-- A set that is not closed. -/
  | unclosedSet
  /-- A 33rd capture. -/
  | captures
  /-- `)` without `(`. -/
  | closeParen
  /-- A back-reference to a capture that is not there or is open, or `%0`. -/
  | index
  /-- `%b` without its two bytes. -/
  | noBalance
  /-- `%f` without `[`. -/
  | noFrontier
  /-- A set with a range that ends in `%`, where that makes a difference. -/
  | rangeEnd
  /-- A capture that is open at the end. -/
  | unfinished
  deriving DecidableEq, Repr

/-- A capture. -/
inductive Cap
  /-- One that is open. -/
  | unclosed (start : ℕ)
  /-- A part of the subject. -/
  | closed (start len : ℕ)
  /-- A position. -/
  | position (start : ℕ)
  deriving DecidableEq, Repr

/-- What the items leave open. -/
structure Rules where
  /-- Whether the error ends the search. If it does not, the item does not match. -/
  raises : PatError → Bool
  /-- The test of a byte against a class. -/
  has : PClass → UInt8 → Except PatError Bool
  /-- The end of a balanced part that starts before a position. -/
  balance : UInt8 → UInt8 → List UInt8 → ℕ → Except PatError (Option ℕ)

/-- The outcomes of a search that goes on: from a position with captures. -/
abbrev Cont := ℕ → List Cap → Outcomes PatError (ℕ × List Cap)

variable (R : Rules) (sub : List UInt8)

/-- The outcomes of a malformed item. -/
def Rules.bad (e : PatError) : Outcomes PatError (ℕ × List Cap) := if R.raises e then [.error e] else []

/-- What is wrong with a class. -/
def PClass.fault (c : PClass) (left : Bool) : Option PatError :=
  match c with
  | .percent => some (if left then .percent else .percentAtEnd)
  | .bracket => some .bracket
  | .esc letter => if letter = chr '0' then some .index else none
  | .set _ text => if (setRest (text.length + 1) true text).isNone then some .unclosedSet else none
  | _ => none

/-- The outcomes of a test. -/
def whenHas (t : Except PatError Bool) (c : Outcomes PatError (ℕ × List Cap)) : Outcomes PatError (ℕ × List Cap) :=
  match t with
  | .error e => [.error e]
  | .ok true => c
  | .ok false => []

/-- The last open capture below an index, with its start. -/
def lastOpen (caps : List Cap) : ℕ → Option (ℕ × ℕ)
  | 0 => none
  | idx + 1 =>
    match caps[idx]? with
    | some (.unclosed start) => some (idx, start)
    | _ => lastOpen caps idx

/-- The byte at a position, if it has the class. -/
def once (c : PClass) (s : ℕ) (k : Outcomes PatError (ℕ × List Cap)) : Outcomes PatError (ℕ × List Cap) :=
  match sub[s]? with
  | none => []
  | some b => whenHas (R.has c b) k

/-- The outcomes of `-`, from the shortest on. -/
def lazyFrom (c : PClass) (k : ℕ → Outcomes PatError (ℕ × List Cap)) : ℕ → ℕ → Outcomes PatError (ℕ × List Cap)
  | 0, _ => []
  | fuel + 1, s => k s ++ once R sub c s (lazyFrom c k fuel (s + 1))

/-- How many bytes from a position on have the class. -/
def countFrom (c : PClass) : ℕ → ℕ → Except PatError ℕ
  | 0, _ => .ok 0
  | fuel + 1, s =>
    match sub[s]? with
    | none => .ok 0
    | some b =>
      match R.has c b with
      | .error e => .error e
      | .ok false => .ok 0
      | .ok true =>
        match countFrom c fuel (s + 1) with
        | .error e => .error e
        | .ok m => .ok (m + 1)

/-- The outcomes of `*` and `+`, from the longest on. -/
def greedy (c : PClass) (minK s : ℕ) (k : ℕ → Outcomes PatError (ℕ × List Cap)) : Outcomes PatError (ℕ × List Cap) :=
  match countFrom R sub c (sub.length + 1) s with
  | .error e => [.error e]
  | .ok m => (List.range' (s + minK) (m + 1 - minK)).reverse.flatMap k

/-- The outcomes of a class with a quantifier. -/
def quantified (c : PClass) (q : Quant) (s : ℕ) (k : ℕ → Outcomes PatError (ℕ × List Cap)) :
    Outcomes PatError (ℕ × List Cap) :=
  match q with
  | .one => once R sub c s (k (s + 1))
  | .opt => once R sub c s (k (s + 1)) ++ k s
  | .lazy => lazyFrom R sub c k (sub.length + 1) s
  | .star => greedy R sub c 0 s k
  | .plus => greedy R sub c 1 s k

/-- The outcomes of something with a class, if nothing is wrong with it. -/
def guarded (c : PClass) (left : Bool) (k : Outcomes PatError (ℕ × List Cap)) : Outcomes PatError (ℕ × List Cap) :=
  match c.fault left with
  | none => k
  | some e => if R.raises e then [.error e] else k

/-- The outcomes of an item, and of what comes after it. -/
def PItem.outcomes (it : PItem) (s : ℕ) (caps : List Cap) (k : Cont) : Outcomes PatError (ℕ × List Cap) :=
  match it with
  | .eos => if s = sub.length then k s caps else []
  | .posCap => if 32 ≤ caps.length then R.bad .captures else k s (caps ++ [.position s])
  | .openCap => if 32 ≤ caps.length then R.bad .captures else k s (caps ++ [.unclosed s])
  | .closeCap =>
    match lastOpen caps caps.length with
    | none => R.bad .closeParen
    | some (idx, start) => k s (caps.set idx (.closed start (s - start)))
  | .backref idx =>
    match caps[idx]? with
    | some (.closed start len) =>
      if s + len ≤ sub.length ∧ (sub.drop s).take len = (sub.drop start).take len then k (s + len) caps else []
    | some (.position _) => []
    | _ => R.bad .index
  | .balance x y =>
    if sub[s]? = some x then
      match R.balance x y sub (s + 1) with
      | .error e => [.error e]
      | .ok none => []
      | .ok (some stop) => k stop caps
    else []
  | .noBalance => R.bad .noBalance
  | .frontier c =>
    guarded R c true (match R.has c (if 0 < s then sub.getD (s - 1) 0 else 0) with
      | .error e => [.error e]
      | .ok true => []
      | .ok false => whenHas (R.has c (sub.getD s 0)) (k s caps))
  | .noFrontier => R.bad .noFrontier
  | .single c q => guarded R c (decide (s < sub.length)) (quantified R sub c q s fun s => k s caps)

/-- The outcomes of a pattern. -/
def outcomes : List PItem → Cont
  | [], s, caps => [.ok (s, caps)]
  | it :: items, s, caps => it.outcomes R sub s caps (outcomes items)

/-! ## The rules of the code -/

/-- The scan of `%b`: it first opens and then closes. -/
def walkBalance (x y : UInt8) : ℕ → ℕ → List UInt8 → Option ℕ
  | _, _, [] => none
  | k, depth, b :: r =>
    let depth := if b = x then depth + 1 else depth
    if b = y then
      if depth - 1 = 0 then some (k + 1) else walkBalance x y (k + 1) (depth - 1) r
    else walkBalance x y (k + 1) depth r

/-- The code reads `%` and `[` at the end of a pattern and writes the 33rd capture, and other malformed items do
not match. -/
def walkRules : Rules where
  raises e :=
    match e with
    | .percent => true
    | .bracket => true
    | .captures => true
    | _ => false
  has c b := .ok (c.walkHas b)
  balance x y sub k := .ok (walkBalance x y k 1 (sub.drop k))

end Lua2wasm.Pattern
