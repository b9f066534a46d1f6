import Mathlib.Data.List.Nodup
import Mathlib.Logic.Relation
import Mathlib.Tactic.Common

/-!
# Tables of Lua

A heap of tables: a table has an address, its pairs in the order in which `pairs` enumerates them,
and perhaps a metatable, which is a table again. Tables may refer to one another in any way. `α` are
the values that are neither tables nor `nil`; one of them is the string `"__metatable"`.
-/

namespace Jord.Base

variable {α : Type}

/-- A value other than `nil`. -/
inductive Ref (α : Type)
  | atom (a : α)
  | table (address : ℕ)
  deriving DecidableEq

namespace Ref

/-- The value with other addresses. -/
def map (f : ℕ → ℕ) : Ref α → Ref α
  | .atom a => .atom a
  | .table a => .table (f a)

/-- The address of a table. -/
def address? : Ref α → Option ℕ
  | .atom _ => none
  | .table a => some a

/-- The address is below a bound. -/
def Inside (n : ℕ) : Ref α → Prop
  | .atom _ => True
  | .table a => a < n

end Ref

/-- A table. -/
structure Object (α : Type) where
  pairs : List (Ref α × Ref α)
  metatable : Option ℕ

namespace Object

/-- The pairs with other addresses. -/
def mapPairs (f : ℕ → ℕ) (o : Object α) : List (Ref α × Ref α) :=
  o.pairs.map (Prod.map (Ref.map f) (Ref.map f))

variable [DecidableEq α]

/-- `rawget( t, k )` -/
def rawget (o : Object α) (k : Ref α) : Option (Ref α) :=
  (o.pairs.find? fun p => p.1 = k).map Prod.snd

/-- `rawset( t, k, v )` -/
def rawset (o : Object α) (k v : Ref α) : Object α :=
  if o.pairs.any fun p => p.1 = k then
    { o with pairs := o.pairs.map fun p => if p.1 = k then (k, v) else p }
  else { o with pairs := o.pairs ++ [(k, v)] }

/-- A pair with a new key. -/
theorem rawset_of_notMem {o : Object α} {k : Ref α} (hk : k ∉ o.pairs.map Prod.fst) (v : Ref α) :
    o.rawset k v = { o with pairs := o.pairs ++ [(k, v)] } := by
  rw [rawset, if_neg]
  rw [List.any_eq_true]
  rintro ⟨p, hp, hkey⟩
  rw [decide_eq_true_eq] at hkey
  exact hk (List.mem_map.2 ⟨p, hp, hkey⟩)

end Object

/-- The tables by their addresses. -/
abbrev Heap (α : Type) := List (Object α)

namespace Heap

/-- Every address that occurs is one of a table, and a table has a key only once. -/
structure Wf (H : Heap α) : Prop where
  pairs : ∀ o ∈ H, ∀ p ∈ o.pairs, p.1.Inside H.length ∧ p.2.Inside H.length
  metatable : ∀ o ∈ H, ∀ m ∈ o.metatable, m < H.length
  keys : ∀ o ∈ H, (o.pairs.map Prod.fst).Nodup

/-- The table at `a` has the table at `b` as a key or as a value. -/
def Refers (H : Heap α) (a b : ℕ) : Prop :=
  ∃ o, H[a]? = some o ∧ ∃ p ∈ o.pairs, p.1 = .table b ∨ p.2 = .table b

/-- The table is reached from the value by keys and values. -/
def Reaches (H : Heap α) (r : Ref α) (b : ℕ) : Prop :=
  ∃ a, r = .table a ∧ Relation.ReflTransGen (Refers H) a b

theorem Wf.lt_of_refers {H : Heap α} (hH : H.Wf) {a b : ℕ} (h : Refers H a b) : b < H.length := by
  obtain ⟨o, ho, p, hp, hk | hv⟩ := h
  · have hinside := (hH.pairs o (List.mem_of_getElem? ho) p hp).1
    rwa [hk] at hinside
  · have hinside := (hH.pairs o (List.mem_of_getElem? ho) p hp).2
    rwa [hv] at hinside

theorem Wf.lt_of_reaches {H : Heap α} (hH : H.Wf) {r : Ref α} (hr : r.Inside H.length) {b : ℕ}
    (h : Reaches H r b) : b < H.length := by
  obtain ⟨a, rfl, hab⟩ := h
  induction hab with
  | refl => exact hr
  | tail _ hbc _ => exact hH.lt_of_refers hbc

theorem reaches_self (H : Heap α) (a : ℕ) : Reaches H (.table a) a := ⟨a, rfl, .refl⟩

/-- What a key or a value reaches is reached by the table. -/
theorem reaches_of_pair {H : Heap α} {a : ℕ} {o : Object α} (ho : H[a]? = some o)
    {p : Ref α × Ref α} (hp : p ∈ o.pairs) {c : ℕ} (h : Reaches H p.1 c ∨ Reaches H p.2 c) :
    Reaches H (.table a) c := by
  obtain ⟨b, hb, hbc⟩ | ⟨b, hb, hbc⟩ := h
  · exact ⟨a, rfl, .head ⟨o, ho, p, hp, .inl hb⟩ hbc⟩
  · exact ⟨a, rfl, .head ⟨o, ho, p, hp, .inr hb⟩ hbc⟩

variable [DecidableEq α] (metatableField : α)

/-- `getmetatable( object )`: what the metatable has under `__metatable`, or the metatable. -/
def getmetatable (H : Heap α) (a : ℕ) : Option (Ref α) := do
  let object ← H[a]?
  let m ← object.metatable
  let metatable ← H[m]?
  return (metatable.rawget (.atom metatableField)).getD (.table m)

/-- What `getmetatable` returns is one that `setmetatable` takes. -/
def Settable (H : Heap α) (a : ℕ) : Prop := ∀ x, getmetatable metatableField H a ≠ some (.atom x)

end Heap

end Jord.Base
