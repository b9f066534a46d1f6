import Jord.Base.Heap

/-!
# Copying a table

`table.copy`, which copies a table with everything that it reaches by keys and values. A table for
lookup holds the copy of every table that has been begun, so that a table which is reached twice is
copied once, and one that reaches itself is no obstacle.
-/

namespace Jord.Base

variable {α : Type}

/-- The errors of a copy. -/
inductive CopyError
  /-- bad argument to `setmetatable`: nil or table expected -/
  | tableExpected
  /-- The recursion is deeper than the model follows. -/
  | unfinished
  deriving DecidableEq

/-- The tables, and `lookup_table`. -/
structure CopyState (α : Type) where
  heap : Heap α
  lookupTable : ℕ → Option ℕ

namespace CopyState

/-- `new_table = {}` and `lookup_table[object] = new_table` -/
def enter (s : CopyState α) (object : ℕ) : CopyState α :=
  ⟨s.heap ++ [⟨[], none⟩], Function.update s.lookupTable object (some s.heap.length)⟩

theorem lookupTable_enter_self (s : CopyState α) (object : ℕ) :
    (s.enter object).lookupTable object = some s.heap.length := Function.update_self ..

theorem lookupTable_enter_of_ne (s : CopyState α) {object a : ℕ} (h : a ≠ object) :
    (s.enter object).lookupTable a = s.lookupTable a := Function.update_of_ne h ..

/-- The table at `b` is changed. -/
def modify (s : CopyState α) (b : ℕ) (f : Object α → Object α) : CopyState α :=
  { s with heap := s.heap.modify b f }

/-- `setmetatable( new_table, metatable )` for a table without a metatable -/
def setmetatable (s : CopyState α) (b : ℕ) : Option (Ref α) → Except CopyError (CopyState α)
  | none => .ok (s.modify b fun o => { o with metatable := none })
  | some (.table m) => .ok (s.modify b fun o => { o with metatable := some m })
  | some (.atom _) => .error .tableExpected

end CopyState

variable [DecidableEq α]

/-- The loop of `_copy` over the pairs of a table, with the function that it calls. -/
def copyPairs (copy : CopyState α → Ref α → Except CopyError (CopyState α × Ref α)) (newTable : ℕ) :
    List (Ref α × Ref α) → CopyState α → Except CopyError (CopyState α)
  | [], s => .ok s
  | (index, value) :: rest, s => do
    let (s, index) ← copy s index
    let (s, value) ← copy s value
    copyPairs copy newTable rest (s.modify newTable fun o => o.rawset index value)

variable (metatableField : α)

/-- `_copy` -/
def copy : ℕ → CopyState α → Ref α → Except CopyError (CopyState α × Ref α)
  | _, s, .atom a => .ok (s, .atom a)
  | fuel, s, .table object =>
    match s.lookupTable object with
    | some newTable => .ok (s, .table newTable)
    | none =>
      match fuel with
      | 0 => .error .unfinished
      | fuel + 1 => do
        let newTable := s.heap.length
        let pairs := ((s.heap[object]?).map Object.pairs).getD []
        let s ← copyPairs (copy fuel) newTable pairs (s.enter object)
        let s ← s.setmetatable newTable (s.heap.getmetatable metatableField object)
        return (s, .table newTable)

section Calls

variable {metatableField} (fuel : ℕ) {s : CopyState α}

theorem copy_atom (x : α) : copy metatableField fuel s (.atom x) = .ok (s, .atom x) := by
  cases fuel <;> rfl

/-- A table of which a copy has been begun. -/
theorem copy_of_some {a b : ℕ} (h : s.lookupTable a = some b) :
    copy metatableField fuel s (.table a) = .ok (s, .table b) := by
  cases fuel <;> simp only [copy, h]

theorem copy_zero_of_none {a : ℕ} (h : s.lookupTable a = none) :
    copy metatableField 0 s (.table a) = .error .unfinished := by
  simp only [copy, h]

/-- A table that is copied. -/
theorem copy_succ_of_none {a : ℕ} (h : s.lookupTable a = none) :
    copy metatableField (fuel + 1) s (.table a) =
      (copyPairs (copy metatableField fuel) s.heap.length
        (((s.heap[a]?).map Object.pairs).getD []) (s.enter a)).bind fun s₁ =>
      (s₁.setmetatable s.heap.length (s₁.heap.getmetatable metatableField a)).bind fun s₂ =>
      .ok (s₂, .table s.heap.length) := by
  simp only [copy, h]
  rfl

end Calls

/-- `deepcopy`: the tables after the copy, and the copy. -/
def deepcopy (fuel : ℕ) (H : Heap α) (object : Ref α) : Except CopyError (Heap α × Ref α) :=
  (copy metatableField fuel ⟨H, fun _ => none⟩ object).map fun r => (r.1.heap, r.2)

end Jord.Base
