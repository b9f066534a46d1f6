import Jord.Foundations.ChunkLimits
import Jord.Base.Heap

/-!
# Running a chunk

What the chunks of `LuaChunk` do to the tables of a heap. A table constructor makes a new table,
`setmetatable` and assignments change one. `none` stands for an error, and for what is not followed
here: keys that a constructor has twice, the methods `__index` and `__newindex`, and global
variables.
-/

namespace Jord.Base

open LuaChunk (Literal Expr Fields Path Stmt Chunk)

variable {α : Type}

/-- A value; `none` is `nil`. -/
abbrev Value (α : Type) := Option (Ref α)

/-- The values of literals, and the numbers that are the positions in a table constructor. -/
structure Constants (α : Type) where
  value : Literal → α
  position : ℕ → α

namespace Constants

variable (C : Constants α)

/-- The value of a string. -/
def field (name : String) : Ref α := .atom (C.value (.string (Str.ascii name)))

/-- The key of a field of a table constructor at position `i`. -/
def keyValue (i : ℕ) : Option Literal → α
  | none => C.position i
  | some l => C.value l

end Constants

instance (n : ℕ) : DecidablePred (Ref.Inside n : Ref α → Prop)
  | .atom _ => isTrue trivial
  | .table a => inferInstanceAs (Decidable (a < n))

/-- The pair of a field, unless it is `nil`. -/
def pairOf (p : α × Value α) : Option (Ref α × Ref α) := p.2.map fun v => (.atom p.1, v)

namespace Object

variable [DecidableEq α]

/-- `t[k] = v` without metamethods -/
def setField (o : Object α) (k : Ref α) : Value α → Object α
  | some v => o.rawset k v
  | none => { o with pairs := o.pairs.filter fun p => p.1 ≠ k }

theorem rawget_eq_none_iff {o : Object α} {k : Ref α} :
    o.rawget k = none ↔ k ∉ o.pairs.map Prod.fst := by
  simp only [rawget, Option.map_eq_none_iff, List.find?_eq_none, decide_eq_true_eq, List.mem_map,
    not_exists, not_and]

/-- A pair of a table that has every key once. -/
theorem rawget_of_mem {o : Object α} (h : (o.pairs.map Prod.fst).Nodup) {p : Ref α × Ref α}
    (hp : p ∈ o.pairs) : o.rawget p.1 = some p.2 := by
  rw [rawget]
  cases hfind : o.pairs.find? fun q => q.1 = p.1 with
  | none =>
    have hne := List.find?_eq_none.1 hfind p hp
    simp at hne
  | some q =>
    have hq := List.find?_some hfind
    rw [decide_eq_true_eq] at hq
    rw [List.inj_on_of_nodup_map h (List.mem_of_find?_eq_some hfind) hp hq]
    rfl

end Object

variable [DecidableEq α]

namespace Heap

/-- `luaL_getmetafield`: a field of the metatable of a table -/
def metafield (G : Heap α) (a : ℕ) (k : Ref α) : Option (Ref α) := do
  let object ← G[a]?
  let m ← object.metatable
  let metatable ← G[m]?
  metatable.rawget k

/-- A metatable without `__metatable`. -/
theorem getmetatable_of_free {G : Heap α} {a m : ℕ} {o o' : Object α} {x : α} (ho : G[a]? = some o)
    (hm : o.metatable = some m) (ho' : G[m]? = some o') (h : G.metafield a (.atom x) = none) :
    G.getmetatable x a = some (.table m) := by
  have hfree : o'.rawget (.atom x) = none := by
    simpa [metafield, ho, hm, ho'] using h
  simp [getmetatable, ho, hm, ho', hfree]

variable (C : Constants α)

/-- `setmetatable( x, y )` -/
def setmetatable (G : Heap α) : Value α → Value α → Option (Heap α)
  | some (.table a), y =>
    if G.metafield a (C.field "__metatable") ≠ none then none
    else
      match y with
      | some (.atom _) => none
      | some (.table m) => some (G.modify a fun o => { o with metatable := some m })
      | none => some (G.modify a fun o => { o with metatable := none })
  | _, _ => none

/-- `x[k]` -/
def index (G : Heap α) (x : Value α) (k : Ref α) : Option (Value α) :=
  match x with
  | some (.table a) =>
    match (G[a]?).bind fun o => o.rawget k with
    | some v => some (some v)
    | none => if G.metafield a (C.field "__index") ≠ none then none else some none
  | _ => none

/-- `x[k] = y` -/
def newindex (G : Heap α) (x : Value α) (k : Ref α) (y : Value α) : Option (Heap α) :=
  match x with
  | some (.table a) =>
    if (G[a]?).bind (fun o => o.rawget k) = none ∧ G.metafield a (C.field "__newindex") ≠ none then
      none
    else some (G.modify a fun o => o.setField k y)
  | _ => none

/-- `getmetatable( x )` of a table -/
def metatableOf (G : Heap α) : Value α → Option (Value α)
  | some (.table a) => some (G.getmetatable (C.value (.string (Str.ascii "__metatable"))) a)
  | _ => none

end Heap

variable (C : Constants α)

mutual

/-- An expression: the tables after it, and its value. -/
def evalExpr : Expr → Heap α → Option (Heap α × Value α)
  | .nil, G => some (G, none)
  | .literal l, G => some (G, some (.atom (C.value l)))
  | .table fs, G => do
    let (G, fields) ← evalFields fs 1 G
    if (fields.map Prod.fst).Nodup then
      return (G ++ [⟨fields.filterMap pairOf, none⟩], some (.table G.length))
    else none
  | .setmetatable e m, G => do
    let (G, x) ← evalExpr e G
    let (G, y) ← evalExpr m G
    let G ← G.setmetatable C x y
    return (G, x)

/-- Fields of a table constructor, the first one without a key having the position `i`: the tables
after them, and the keys with their values. -/
def evalFields : Fields → ℕ → Heap α → Option (Heap α × List (α × Value α))
  | .nil, _, G => some (G, [])
  | .cons key e fs, i, G => do
    let (G, v) ← evalExpr e G
    let (G, fields) ← evalFields fs (if key = none then i + 1 else i) G
    return (G, (C.keyValue i key, v) :: fields)

end

theorem evalExpr_table (fs : Fields) (G : Heap α) : evalExpr C (.table fs) G =
    (evalFields C fs 1 G).bind fun r =>
      if (r.2.map Prod.fst).Nodup then
        some (r.1 ++ [⟨r.2.filterMap pairOf, none⟩], some (.table r.1.length))
      else none := rfl

theorem evalExpr_setmetatable (e m : Expr) (G : Heap α) : evalExpr C (.setmetatable e m) G =
    (evalExpr C e G).bind fun r => (evalExpr C m r.1).bind fun r' =>
      (r'.1.setmetatable C r.2 r'.2).bind fun G' => some (G', r.2) := rfl

theorem evalFields_cons (key : Option Literal) (e : Expr) (fs : Fields) (i : ℕ) (G : Heap α) :
    evalFields C (.cons key e fs) i G =
      (evalExpr C e G).bind fun r =>
      (evalFields C fs (if key = none then i + 1 else i) r.1).bind fun r' =>
        some (r'.1, (C.keyValue i key, r.2) :: r'.2) := rfl

variable {C} in
/-- A table whose metatable is not protected gets another one. -/
theorem Heap.setmetatable_of_free {G : Heap α} {a : ℕ} {y : Value α}
    (h : G.metafield a (C.field "__metatable") = none) (hy : ∀ x, y ≠ some (.atom x)) :
    G.setmetatable C (some (.table a)) y =
      some (G.modify a fun o => { o with metatable := y.bind Ref.address? }) := by
  rcases y with _ | x | b
  · simp [Heap.setmetatable, h]
  · exact absurd rfl (hy x)
  · simp [Heap.setmetatable, h, Ref.address?]

variable {C} in
/-- A field of a table without `__newindex`. -/
theorem Heap.newindex_of_free {G : Heap α} {a : ℕ}
    (h : G.metafield a (C.field "__newindex") = none) (k : Ref α) (y : Value α) :
    G.newindex C (some (.table a)) k y = some (G.modify a fun o => o.setField k y) := by
  rw [Heap.newindex, if_neg]
  rintro ⟨-, hne⟩
  exact hne h

/-- A path that starts from the variable `v` with the value `x`. -/
def evalPath (v : Str) (x : Value α) (G : Heap α) : Path → Option (Value α)
  | .var w => if w = v then some x else none
  | .field p l => (evalPath v x G p).bind fun y => G.index C y (.atom (C.value l))
  | .metatable p => (evalPath v x G p).bind fun y => G.metatableOf C y

/-- A statement. -/
def runStmt (v : Str) (x : Value α) (G : Heap α) : Stmt → Option (Heap α)
  | .assign p l q => do
    let y ← evalPath C v x G p
    let z ← evalPath C v x G q
    G.newindex C y (.atom (C.value l)) z
  | .setmetatable p q => do
    let y ← evalPath C v x G p
    let z ← evalPath C v x G q
    G.setmetatable C y z

/-- Statements one after the other. -/
def runBody (v : Str) (x : Value α) : List Stmt → Heap α → Option (Heap α)
  | [], G => some G
  | st :: body, G => (runStmt C v x G st).bind (runBody v x body)

/-- A chunk: the tables after it, and what it returns. -/
def evalChunk : Chunk → Heap α → Option (Heap α × Value α)
  | .expression e, G => evalExpr C e G
  | .block v e body w, G => do
    let (G, x) ← evalExpr C e G
    let G ← runBody C v x body G
    let y ← evalPath C v x G w
    return (G, y)

/-- A text that is run as a chunk while `calls` C calls are in progress. -/
def runChunk (calls : ℕ) (text : Str) (G : Heap α) : Option (Heap α × Value α) := do
  let c ← LuaChunk.parse calls text
  evalChunk C c G

/-- A text that keeps to the limits of the parser is run as the chunk that it is. -/
theorem runChunk_of_within {calls : ℕ} {text : Str} {c : Chunk}
    (hc : LuaChunk.ofText text = some c) (h : c.Within calls text) (G : Heap α) :
    runChunk C calls text G = evalChunk C c G := by
  rw [runChunk, LuaChunk.parse_eq_some_iff.2 ⟨hc, h⟩]
  rfl

end Jord.Base
