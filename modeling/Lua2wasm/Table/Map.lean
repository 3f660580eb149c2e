import Lua2wasm.Table.Value

/-!
# A table as a finite map

What a table is for: a map from keys to values, in which an absent key has the value `nil`. A store
changes the map at one key. `table.insert` and `table.remove` are sequences of element-wise writes
at integer keys (`IntWrite`), as the reference manual describes them, around a border of the table.
Nothing here knows how the runtime stores a table.
-/

namespace Lua2wasm.Table

/-- A table as a map. -/
abbrev Map := Key → Val

/-- The key of a position. -/
def ikey (n : ℕ) : Key := .int (Int64.ofInt n)

/-- The map of a new table. -/
def Map.empty : Map := fun _ => .nil

/-- A store. -/
def Map.put (m : Map) (key : Key) (v : Val) : Map := Function.update m key v

/-- An element-wise write. -/
inductive IntWrite
  /-- `t[dst] = t[src]`. -/
  | move (src dst : ℕ)
  /-- `t[dst] = v`. -/
  | put (dst : ℕ) (v : Val)
  deriving DecidableEq, Repr

/-- One write. -/
def Map.write (m : Map) : IntWrite → Map
  | .move src dst => m.put (ikey dst) (m (ikey src))
  | .put dst v => m.put (ikey dst) v

/-- The writes of a list, one after the other. -/
def Map.writes : Map → List IntWrite → Map
  | m, [] => m
  | m, w :: ws => (m.write w).writes ws

/-- The moves `t[i + 1] = t[i]` for `todo` positions down from `i`. -/
def upMoves : ℕ → ℕ → List IntWrite
  | 0, _ => []
  | todo + 1, i => .move i (i + 1) :: upMoves todo (i - 1)

/-- The moves `t[i] = t[i + 1]` for `todo` positions up from `i`. -/
def downMoves : ℕ → ℕ → List IntWrite
  | 0, _ => []
  | todo + 1, i => .move (i + 1) i :: downMoves todo (i + 1)

/-- The writes of `table.insert(t, pos, v)` on a table with the border `n`. -/
def insertWrites (n pos : ℕ) (v : Val) : List IntWrite := upMoves (n + 1 - pos) n ++ [.put pos v]

/-- The writes of `table.remove(t, pos)` on a table with the border `n`. -/
def removeWrites (n pos : ℕ) : List IntWrite := downMoves (n - pos) pos ++ [.put (max pos n) .nil]

/-- A length of the table. -/
def Map.IsBorder (m : Map) (n : ℕ) : Prop := (n = 0 ∨ m (ikey n) ≠ .nil) ∧ m (ikey (n + 1)) = .nil

/-- The position is within the bounds that `table.insert` checks. -/
def InBounds (n : ℕ) (pos : ℤ) : Prop := 1 ≤ pos ∧ pos ≤ n + 1

/-- The position is one that `table.remove` allows. -/
def Removable (n : ℕ) (pos : ℤ) : Prop := pos = n ∨ InBounds n pos

instance (n : ℕ) (pos : ℤ) : Decidable (InBounds n pos) :=
  inferInstanceAs (Decidable (1 ≤ pos ∧ pos ≤ n + 1))

instance (n : ℕ) (pos : ℤ) : Decidable (Removable n pos) :=
  inferInstanceAs (Decidable (pos = n ∨ InBounds n pos))

/-- A raw write. -/
inductive MapOp
  /-- A store of the value at the key that a value denotes. -/
  | set (key : Option Key) (v : Val)
  /-- `table.insert(t, v)`. -/
  | append (v : Val)
  /-- `table.insert(t, pos, v)`. -/
  | insert (pos : ℤ) (v : Val)
  /-- `table.remove(t, pos)`; no position for `table.remove(t)`. -/
  | remove (pos : Option ℤ)

/-- The element-wise writes of an operation of the table library. There are none if its position is
out of bounds. -/
def MapOp.Writes (m : Map) : MapOp → List IntWrite → Prop
  | .set _ _, _ => False
  | .append v, ws => ∃ n, m.IsBorder n ∧ ws = [.put (n + 1) v]
  | .insert pos v, ws =>
    ∃ n, m.IsBorder n ∧ ws = if InBounds n pos then insertWrites n pos.toNat v else []
  | .remove none, ws => ∃ n, m.IsBorder n ∧ ws = removeWrites n n
  | .remove (some pos), ws =>
    ∃ n, m.IsBorder n ∧ ws = if Removable n pos then removeWrites n pos.toNat else []

/-- What a raw write does to a map. A store to a key that is nil or NaN does nothing. A call that
raises has done the writes before the one that raised. -/
inductive Map.Step (m : Map) : MapOp → (raised : Bool) → Map → Prop
  /-- A store. -/
  | set (key : Key) (v : Val) : Map.Step m (.set (some key) v) false (m.put key v)
  /-- A store that raises. -/
  | failed (key : Option Key) (v : Val) : Map.Step m (.set key v) true m
  /-- An operation of the table library. -/
  | library (op : MapOp) (ws : List IntWrite) (h : op.Writes m ws) : Map.Step m op false (m.writes ws)
  /-- An operation that raises. -/
  | interrupted (op : MapOp) (ws p : List IntWrite) (h : op.Writes m ws) (hp : p <+: ws)
    (hlt : p.length < ws.length ∨ ws = []) : Map.Step m op true (m.writes p)

variable {m : Map} {i j n pos todo : ℕ} {key : Key} {v : Val} {ws : List IntWrite}

theorem Map.put_same : m.put key v key = v := by
  unfold Map.put
  exact Function.update_self key v m

theorem Map.put_other {key' : Key} (h : key' ≠ key) : m.put key v key' = m key' := by
  unfold Map.put
  exact Function.update_of_ne h v m

theorem Map.put_apply (key' : Key) : m.put key v key' = if key' = key then v else m key' := by
  unfold Map.put
  exact Function.update_apply m key v key'

theorem Map.writes_append (ws' : List IntWrite) : m.writes (ws ++ ws') = (m.writes ws).writes ws' := by
  induction ws generalizing m with
  | nil => rfl
  | cons w ws ih => exact ih

/-- Positions that fit an integer are different keys. -/
theorem ikey_inj (hi : i < 2^63) (hj : j < 2^63) (h : ikey i = ikey j) : i = j := by
  have hi' : (Int64.ofInt i).toInt = i := Int64.toInt_ofInt_of_le (by omega) (by omega)
  have hj' : (Int64.ofInt j).toInt = j := Int64.toInt_ofInt_of_le (by omega) (by omega)
  unfold ikey at h
  rw [Key.int.inj h, hj'] at hi'
  omega

theorem ikey_ne (hi : i < 2^63) (hj : j < 2^63) (h : i ≠ j) : ikey i ≠ ikey j :=
  fun heq => h (ikey_inj hi hj heq)

/-! ## The effect of the moves -/

/-- The moves up leave the other keys alone. -/
theorem writes_upMoves_other (hn : i + 1 < 2^63) (htodo : todo ≤ i)
    (h : ∀ j, i + 1 - todo < j → j ≤ i + 1 → key ≠ ikey j) :
    m.writes (upMoves todo i) key = m key := by
  induction todo generalizing i m with
  | zero => rfl
  | succ todo ih =>
    change (m.put (ikey (i + 1)) (m (ikey i))).writes (upMoves todo (i - 1)) key = m key
    rw [ih (by omega) (by omega) fun j hj hji => h j (by omega) (by omega)]
    exact Map.put_other (h (i + 1) (by omega) (Nat.le_refl _))

/-- The moves up bring to each position what was at the one before. -/
theorem writes_upMoves (hn : i + 1 < 2^63) (htodo : todo ≤ i) (hj : i + 1 - todo < j) (hji : j ≤ i + 1) :
    m.writes (upMoves todo i) (ikey j) = m (ikey (j - 1)) := by
  induction todo generalizing i m with
  | zero => omega
  | succ todo ih =>
    change (m.put (ikey (i + 1)) (m (ikey i))).writes (upMoves todo (i - 1)) (ikey j) = _
    by_cases hlast : j = i + 1
    · -- the first move brings it, and the others do not touch it
      subst hlast
      rw [writes_upMoves_other (by omega) (by omega), Map.put_same]
      · rfl
      · exact fun j' _ hj' => ikey_ne (by omega) (by omega) (by omega)
    · rw [ih (by omega) (by omega) (by omega) (by omega),
        Map.put_other (ikey_ne (by omega) (by omega) (by omega))]

/-- The moves down leave the other keys alone. -/
theorem writes_downMoves_other (h : ∀ j, i ≤ j → j < i + todo → key ≠ ikey j) :
    m.writes (downMoves todo i) key = m key := by
  induction todo generalizing i m with
  | zero => rfl
  | succ todo ih =>
    change (m.put (ikey i) (m (ikey (i + 1)))).writes (downMoves todo (i + 1)) key = m key
    rw [ih fun j hj hji => h j (by omega) (by omega)]
    exact Map.put_other (h i (Nat.le_refl _) (by omega))

/-- The moves down bring to each position what was at the one after. -/
theorem writes_downMoves (hn : i + todo < 2^63) (hj : i ≤ j) (hji : j < i + todo) :
    m.writes (downMoves todo i) (ikey j) = m (ikey (j + 1)) := by
  induction todo generalizing i m with
  | zero => omega
  | succ todo ih =>
    change (m.put (ikey i) (m (ikey (i + 1)))).writes (downMoves todo (i + 1)) (ikey j) = _
    by_cases hfirst : j = i
    · subst hfirst
      rw [writes_downMoves_other, Map.put_same]
      exact fun j' hj' hlt => ikey_ne (by omega) (by omega) (by omega)
    · rw [ih (by omega) (by omega) (by omega),
        Map.put_other (ikey_ne (by omega) (by omega) (by omega))]

/-- What `table.insert` does, key by key. -/
theorem writes_insertWrites (hn : n + 1 < 2^63) (hpos : 1 ≤ pos) (hle : pos ≤ n + 1) (key : Key) :
    (key = ikey pos → m.writes (insertWrites n pos v) key = v) ∧
      (∀ j, pos < j → j ≤ n + 1 → key = ikey j → m.writes (insertWrites n pos v) key = m (ikey (j - 1))) ∧
      ((∀ j, pos ≤ j → j ≤ n + 1 → key ≠ ikey j) → m.writes (insertWrites n pos v) key = m key) := by
  unfold insertWrites
  rw [Map.writes_append]
  change (_ → (Map.put _ (ikey pos) v) key = v) ∧ _
  refine ⟨?_, ?_, ?_⟩
  · rintro rfl
    exact Map.put_same
  · rintro j hj hjn rfl
    change Map.put _ (ikey pos) v (ikey j) = _
    rw [Map.put_other (ikey_ne (by omega) (by omega) (by omega)),
      writes_upMoves (by omega) (by omega) (by omega) hjn]
  · intro h
    change Map.put _ (ikey pos) v key = _
    rw [Map.put_other (h pos (Nat.le_refl _) hle),
      writes_upMoves_other (by omega) (by omega) fun j hj hjn => h j (by omega) hjn]

/-- What `table.remove` does, key by key, when the position is not after the border. -/
theorem writes_removeWrites (hn : n < 2^63) (hle : pos ≤ n) (key : Key) :
    (key = ikey n → m.writes (removeWrites n pos) key = .nil) ∧
      (∀ j, pos ≤ j → j < n → key = ikey j → m.writes (removeWrites n pos) key = m (ikey (j + 1))) ∧
      ((∀ j, pos ≤ j → j ≤ n → key ≠ ikey j) → m.writes (removeWrites n pos) key = m key) := by
  unfold removeWrites
  rw [Map.writes_append, Nat.max_eq_right hle]
  change (_ → (Map.put _ (ikey n) .nil) key = .nil) ∧ _
  refine ⟨?_, ?_, ?_⟩
  · rintro rfl
    exact Map.put_same
  · rintro j hj hjn rfl
    change Map.put _ (ikey n) .nil (ikey j) = _
    rw [Map.put_other (ikey_ne (by omega) hn (by omega)), writes_downMoves (by omega) hj (by omega)]
  · intro h
    change Map.put _ (ikey n) .nil key = _
    rw [Map.put_other (h n hle (Nat.le_refl _)),
      writes_downMoves_other fun j hj hjn => h j hj (by omega)]

end Lua2wasm.Table
