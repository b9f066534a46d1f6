import Jord.Foundations.PathStore

/-!
# Ordered forests of named entries

The entries of a directory in some order, each a file or a directory with its own entries: the
first-child, next-sibling form of a tree. `entryAt` reads a path, so a forest denotes a `PathStore`;
two listings of one tree are different forests with the same store.
-/

namespace Jord

/-- A list of named entries: leaves with data and nodes with a forest below. -/
inductive Forest (κ α : Type*)
  | nil
  | leaf (k : κ) (a : α) (rest : Forest κ α)
  | node (k : κ) (sub rest : Forest κ α)

namespace Forest

variable {κ α : Type*}

/-- The number of entries at the top. -/
def width : Forest κ α → ℕ
  | nil => 0
  | leaf _ _ rest => rest.width + 1
  | node _ _ rest => rest.width + 1

/-- The number of entries at any depth. -/
def size : Forest κ α → ℕ
  | nil => 0
  | leaf _ _ rest => rest.size + 1
  | node _ sub rest => sub.size + rest.size + 1

/-- The names at the top. -/
def names : Forest κ α → List κ
  | nil => []
  | leaf k _ rest => k :: rest.names
  | node k _ rest => k :: rest.names

/-- Names are distinct in every directory and no directory is empty. -/
def Wf : Forest κ α → Prop
  | nil => True
  | leaf k _ rest => k ∉ rest.names ∧ rest.Wf
  | node k sub rest => k ∉ rest.names ∧ sub ≠ nil ∧ sub.Wf ∧ rest.Wf

theorem width_eq_zero {F : Forest κ α} : F.width = 0 ↔ F = nil := by
  cases F <;> simp [width]

variable [DecidableEq κ]

/-- What a path leads to. -/
def entryAt : Forest κ α → PathStore κ α
  | _, [] => some .directory
  | nil, _ :: _ => none
  | leaf k a rest, k' :: ks =>
    if k' = k then (if ks = [] then some (.file a) else none) else rest.entryAt (k' :: ks)
  | node k sub rest, k' :: ks => if k' = k then sub.entryAt ks else rest.entryAt (k' :: ks)

theorem entryAt_nil (F : Forest κ α) : F.entryAt [] = some .directory := by
  cases F <;> rfl

theorem entryAt_of_notMem {F : Forest κ α} {k : κ} (hk : k ∉ F.names) (ks : List κ) :
    F.entryAt (k :: ks) = none := by
  induction F with
  | nil => rfl
  | leaf k' a rest ih =>
    simp only [names, List.mem_cons, not_or] at hk
    simp [entryAt, hk.1, ih hk.2]
  | node k' sub rest _ ih =>
    simp only [names, List.mem_cons, not_or] at hk
    simp [entryAt, hk.1, ih hk.2]

end Forest

end Jord
