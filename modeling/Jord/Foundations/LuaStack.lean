import Jord.Foundations.Bytes
import Jord.Foundations.Loop

/-!
# Programs on a Lua stack

A C program that works on the stack of a `lua_State`: its top is the head of a list, and every
operation is one function of the C API, with the elements that it pushes and pops. The tables have
no metatables. A program may carry data of its own besides the stack.

A table is a list of pairs with distinct keys, in the order in which `lua_next` runs through it.
`Traversing t key rest` says that a traversal which has come to `key` has the pairs `rest` before
it; `Table.next_of_traversing` is what `lua_next` does then.

Where the API gives no meaning to a call, the program ends in a `Stop`.
-/

namespace Jord.LuaStack

/-! ## Values and tables -/

/-- A Lua value; `ν` is the type of numbers. -/
inductive Value (ν : Type)
  | nil
  | boolean (b : Bool)
  | number (n : ν)
  | string (s : Str)
  | table (t : ℕ)
  | function (f : ℕ)
  | userdata (u : ℕ)
  deriving DecidableEq

/-- The pairs of a table, in the order of a traversal. -/
structure Table (ν : Type) where
  pairs : List (Value ν × Value ν)
  nodup : (pairs.map Prod.fst).Nodup
  key_ne_nil : Value.nil ∉ pairs.map Prod.fst

variable {ν δ ε : Type} [DecidableEq ν]

/-- The value under a key. -/
def Table.get (t : Table ν) (key : Value ν) : Value ν :=
  ((t.pairs.find? fun p => p.1 = key).map Prod.snd).getD .nil

/-- The pair behind a key, `nil` standing before the first; `none` is an invalid key. -/
def Table.next (t : Table ν) (key : Value ν) : Option (Option (Value ν × Value ν)) :=
  if key = .nil then some t.pairs.head?
  else
    match t.pairs.dropWhile fun p => p.1 ≠ key with
    | [] => none
    | _ :: rest => some rest.head?

omit [DecidableEq ν] in
/-- A traversal has come to `key`, and `rest` is before it. -/
def Traversing (t : Table ν) (key : Value ν) (rest : List (Value ν × Value ν)) : Prop :=
  (key = .nil ∧ rest = t.pairs) ∨ ∃ pre v, t.pairs = pre ++ (key, v) :: rest

omit [DecidableEq ν] in
theorem Traversing.start (t : Table ν) : Traversing t .nil t.pairs := .inl ⟨rfl, rfl⟩

omit [DecidableEq ν] in
theorem Traversing.step {t : Table ν} {key : Value ν} {p : Value ν × Value ν}
    {rest : List (Value ν × Value ν)} (h : Traversing t key (p :: rest)) :
    Traversing t p.1 rest := by
  rcases h with ⟨-, hrest⟩ | ⟨pre, v, hpairs⟩
  · exact .inr ⟨[], p.2, hrest.symm⟩
  · exact .inr ⟨pre ++ [(key, v)], p.2, by rw [hpairs, List.append_assoc]; rfl⟩

/-- **`lua_next` in a traversal.** -/
theorem Table.next_of_traversing {t : Table ν} {key : Value ν} {rest : List (Value ν × Value ν)}
    (h : Traversing t key rest) : t.next key = some rest.head? := by
  rcases h with ⟨rfl, rfl⟩ | ⟨pre, v, hpairs⟩
  · rw [Table.next, if_pos rfl]
  · have hkey : key ≠ .nil := by
      rintro rfl
      exact t.key_ne_nil (by simp [hpairs])
    have hpre : ∀ p ∈ pre, decide (p.1 ≠ key) = true := by
      intro p hp
      have hnodup := t.nodup
      rw [hpairs, List.map_append, List.map_cons] at hnodup
      have hdisjoint := List.nodup_append.1 hnodup
      exact decide_eq_true (hdisjoint.2.2 p.1 (List.mem_map_of_mem hp) key List.mem_cons_self)
    rw [Table.next, if_neg hkey, hpairs, List.dropWhile_append_of_pos hpre,
      List.dropWhile_cons_of_neg (by simp)]

/-! ## Programs -/

/-- How a program ends without a result: an exception is thrown, or the API gives no meaning to a
call. -/
inductive Stop (ε : Type)
  | thrown (e : ε)
  /-- `lua_next` on a value that is no table. -/
  | nextOfNoTable
  /-- `lua_next` with a key that is not in the table. -/
  | invalidKey
  /-- A field of a value that is no table. -/
  | indexOfNoTable
  /-- A `std::string` is constructed from `NULL`. -/
  | nullString
  /-- An index beyond the bottom of the stack. -/
  | emptyStack
  /-- A chunk does not come to an end, or a loop takes more rounds than the model follows. -/
  | unfinished
  deriving DecidableEq

/-- The stack, its top first, and the data of the program. -/
structure State (ν δ : Type) where
  stack : List (Value ν)
  data : δ

/-- A program. -/
abbrev Program (ν δ ε α : Type) := StateT (State ν δ) (Except (Stop ε)) α

/-- What the API needs to know: the tables, and how numbers become strings. -/
structure Api (ν : Type) where
  table : ℕ → Table ν
  number2str : ν → Str

/-- The rest of the run has no meaning. -/
def stop {α : Type} (e : Stop ε) : Program ν δ ε α := fun _ => .error e

/-- `lua_pushnil`, `lua_pushnumber` -/
def push (v : Value ν) : Program ν δ ε Unit := modify fun s => { s with stack := v :: s.stack }

/-- `lua_pop` -/
def pop (n : ℕ) : Program ν δ ε Unit := modify fun s => { s with stack := s.stack.drop n }

/-- The value at an index below the top: `at 1` is the index `-1`. -/
def valueAt (i : ℕ) : Program ν δ ε (Value ν) := do
  match (← get).stack[i - 1]? with
  | some v => return v
  | none => stop .emptyStack

/-- `lua_istable` -/
def Value.isTable : Value ν → Bool
  | .table _ => true
  | _ => false

omit [DecidableEq ν] in
theorem Value.isTable_cases (v : Value ν) : (∃ t, v = .table t) ∨ v.isTable = false := by
  cases v with
  | table t => exact .inl ⟨t, rfl⟩
  | _ => exact .inr rfl

/-- `lua_isstring`: numbers count as strings. -/
def Value.isString : Value ν → Bool
  | .string _ => true
  | .number _ => true
  | _ => false

/-- `lua_toboolean` -/
def Value.toBoolean : Value ν → Bool
  | .nil => false
  | .boolean b => b
  | _ => true

variable (A : Api ν)

/-- The string that `lua_tostring` returns; `none` is `NULL`. -/
def Value.toLString : Value ν → Option Str
  | .string s => some s
  | .number n => some (A.number2str n)
  | _ => none

/-- What `lua_tostring` leaves on the stack: a number is converted in its place. -/
def Value.converted : Value ν → Value ν
  | .number n => .string (A.number2str n)
  | v => v

/-- `lua_tostring( l, -1 )` -/
def toLString : Program ν δ ε (Option Str) := do
  let v ← valueAt 1
  modify fun s => { s with stack := v.converted A :: s.stack.tail }
  return v.toLString A

/-- A `std::string` made of what `lua_tostring` returns. -/
def stdString : Option Str → Program ν δ ε Str
  | some s => return s
  | none => stop .nullString

/-- `lua_getfield( l, -1, k )` -/
def getField (k : Str) : Program ν δ ε Unit := do
  match ← valueAt 1 with
  | .table t => push ((A.table t).get (.string k))
  | _ => stop .indexOfNoTable

/-- `lua_gettable( l, -2 )` -/
def getTable : Program ν δ ε Unit := do
  let key ← valueAt 1
  match ← valueAt 2 with
  | .table t =>
    pop 1
    push ((A.table t).get key)
  | _ => stop .indexOfNoTable

/-- What `lua_next` pushes, and whether there is a pair. -/
def pushPair : Option (Option (Value ν × Value ν)) → Program ν δ ε Bool
  | none => stop .invalidKey
  | some none => return false
  | some (some (k, v)) => do
    push k
    push v
    return true

/-- `lua_next( l, -2 )` -/
def next : Program ν δ ε Bool := do
  let key ← valueAt 1
  match ← valueAt 2 with
  | .table t =>
    pop 1
    pushPair ((A.table t).next key)
  | _ => stop .nextOfNoTable

/-- One round of a loop, which goes on if the round says so. -/
def loopStep (round : Program ν δ ε Bool) (s : State ν δ) :
    State ν δ ⊕ Except (Stop ε) (State ν δ) :=
  match round s with
  | .ok (true, s) => .inl s
  | .ok (false, s) => .inr (.ok s)
  | .error e => .inr (.error e)

/-- A loop over rounds. -/
def loop (fuel : ℕ) (round : Program ν δ ε Bool) : Program ν δ ε Unit := fun s =>
  match Loop.run (loopStep round) fuel s with
  | none => .error .unfinished
  | some r => r.map fun s => ((), s)

/-! ## What the operations do -/

section Apply

variable {α β : Type} {s s' : State ν δ} {v : Value ν} {stack : List (Value ν)} {d : δ} {t : ℕ}
  {key : Value ν} {rest : List (Value ν × Value ν)} {p : Value ν × Value ν}

omit [DecidableEq ν]

theorem bind_of_ok {m : Program ν δ ε α} {k : α → Program ν δ ε β} {a : α}
    (h : m s = .ok (a, s')) : (m >>= k) s = k a s' := by
  change Except.bind (m s) _ = _
  rw [h]
  rfl

theorem bind_of_error {m : Program ν δ ε α} {k : α → Program ν δ ε β} {e : Stop ε}
    (h : m s = .error e) : (m >>= k) s = .error e := by
  change Except.bind (m s) _ = _
  rw [h]
  rfl

@[simp] theorem pure_apply (a : α) (s : State ν δ) :
    (pure a : Program ν δ ε α) s = .ok (a, s) := rfl

theorem push_apply (v : Value ν) (s : State ν δ) :
    (push v : Program ν δ ε Unit) s = .ok ((), ⟨v :: s.stack, s.data⟩) := rfl

theorem pop_apply (n : ℕ) (s : State ν δ) :
    (pop n : Program ν δ ε Unit) s = .ok ((), ⟨s.stack.drop n, s.data⟩) := rfl

theorem valueAt_one : (valueAt 1 : Program ν δ ε (Value ν)) ⟨v :: stack, d⟩ =
    .ok (v, ⟨v :: stack, d⟩) := rfl

end Apply

section Tables

variable {stack : List (Value ν)} {d : δ} {t : ℕ} {key v : Value ν}
  {rest : List (Value ν × Value ν)} {p : Value ν × Value ν}

theorem getField_table (k : Str) :
    (getField A k : Program ν δ ε Unit) ⟨.table t :: stack, d⟩ =
      .ok ((), ⟨(A.table t).get (.string k) :: .table t :: stack, d⟩) := rfl

theorem getTable_table : (getTable A : Program ν δ ε Unit) ⟨key :: .table t :: stack, d⟩ =
    .ok ((), ⟨(A.table t).get key :: .table t :: stack, d⟩) := rfl

theorem next_table : (next A : Program ν δ ε Bool) ⟨key :: .table t :: stack, d⟩ =
    pushPair ((A.table t).next key) ⟨.table t :: stack, d⟩ := rfl

/-- `lua_next` before a pair. -/
theorem next_cons (h : Traversing (A.table t) key (p :: rest)) :
    (next A : Program ν δ ε Bool) ⟨key :: .table t :: stack, d⟩ =
      .ok (true, ⟨p.2 :: p.1 :: .table t :: stack, d⟩) := by
  rw [next_table, Table.next_of_traversing h]
  rfl

/-- `lua_next` at the end of a traversal. -/
theorem next_nil (h : Traversing (A.table t) key []) :
    (next A : Program ν δ ε Bool) ⟨key :: .table t :: stack, d⟩ =
      .ok (false, ⟨.table t :: stack, d⟩) := by
  rw [next_table, Table.next_of_traversing h]
  rfl

theorem next_noTable (hv : v.isTable = false) :
    (next A : Program ν δ ε Bool) ⟨key :: v :: stack, d⟩ = .error .nextOfNoTable := by
  cases v <;> first | rfl | cases hv

omit [DecidableEq ν] in
/-- The head of a traversal of the table `t`: its key and the table are on the stack, and the pairs
`rest` are still to come. -/
def AtHead (A : Api ν) (t : ℕ) (below : List (Value ν)) (rest : List (Value ν × Value ν))
    (s : State ν δ) : Prop :=
  ∃ key, s.stack = key :: .table t :: below ∧ Traversing (A.table t) key rest

end Tables

end Jord.LuaStack
