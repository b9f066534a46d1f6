import Jord.Base.Evaluate
import Mathlib.Data.List.Perm.Basic
import Mathlib.Logic.Function.Basic

/-!
# Tables as a chunk

A heap of tables that may refer to one another in any way is written as a chunk in one walk. A table
constructor stands where the walk comes to a table for the first time; the path to this place is
kept (`PlanState.defined`). A place from which the walk comes to a table again is left empty, to be
filled by a statement when all constructors are done (`PlanState.late`).
-/

namespace Jord.Base

open LuaChunk (Literal Expr Fields Path Stmt Chunk)

variable {α : Type}

/-- A place for a value: the variable itself, a field of a table, or its metatable. -/
inductive Place
  | root
  | slot (table : ℕ) (key : Option Literal)
  deriving DecidableEq

/-- A path to a field, or to the metatable. -/
def step (p : Path) : Option Literal → Path
  | some l => .field p l
  | none => .metatable p

/-- The paths of the tables that have been come to, and the places that are left empty, with the
tables which belong there. -/
structure PlanState where
  defined : ℕ → Option Path
  late : List (Place × ℕ)

variable (v : Str)

/-- The path of a table. -/
def PlanState.path (s : PlanState) (a : ℕ) : Path := (s.defined a).getD (.var v)

/-- The path of a place. -/
def Place.path (s : PlanState) : Place → Path
  | root => .var v
  | slot a key => step (s.path v a) key

namespace PlanState

/-- The walk comes to a table for the first time. -/
def enter (s : PlanState) (a : ℕ) (p : Path) : PlanState :=
  { s with defined := Function.update s.defined a (some p) }

/-- A place is left empty. -/
def leave (s : PlanState) (place : Place) (a : ℕ) : PlanState :=
  { s with late := s.late ++ [(place, a)] }

/-- The statement that fills a place. -/
def stmt (s : PlanState) : Place × ℕ → Option Stmt
  | (.root, _) => none
  | (.slot a (some l), b) => some (.assign (s.path v a) l (s.path v b))
  | (.slot a none, b) => some (.setmetatable (s.path v a) (s.path v b))

end PlanState

/-- A constructor with or without a metatable. -/
def construct (fs : Fields) : Option Expr → Expr
  | none => .table fs
  | some m => .setmetatable (.table fs) m

section Walk

variable (literal : α → Option Literal) (position : ℕ → α) (keys : Object α → List (Ref α))
  [DecidableEq α] (H : Heap α)

/-- The metatable of the table `a`. -/
def planMetatable (plan : PlanState → Place → Ref α → Option (PlanState × Expr)) (a : ℕ) :
    Option ℕ → PlanState → Option (PlanState × Option Expr)
  | none, s => some (s, none)
  | some m, s => (plan s (.slot a none) (.table m)).map fun r => (r.1, some r.2)

/-- The fields of the table `a`, with the keys that are left. A key is left out where it is the
position. -/
def planFields (plan : PlanState → Place → Ref α → Option (PlanState × Expr)) (a : ℕ)
    (o : Object α) : List (Ref α) → ℕ → PlanState → Option (PlanState × Fields)
  | [], _, s => some (s, .nil)
  | .table _ :: _, _, _ => none
  | .atom k :: ks, i, s => do
    let l ← literal k
    let value ← o.rawget (.atom k)
    let (s, e) ← plan s (.slot a (some l)) value
    let (s, fs) ← planFields plan a o ks (if k = position i then i + 1 else i) s
    return (s, .cons (if k = position i then none else some l) e fs)

/-- The expression for a value at a place. -/
def planValue : ℕ → PlanState → Place → Ref α → Option (PlanState × Expr)
  | _, s, _, .atom x => (literal x).map fun l => (s, .literal l)
  | fuel, s, place, .table a =>
    match s.defined a with
    | some _ => some (s.leave place a, .nil)
    | none =>
      match fuel with
      | 0 => none
      | fuel + 1 => do
        let o ← H[a]?
        let (s, m) ← planMetatable (planValue fuel) a o.metatable (s.enter a (place.path v s))
        let (s, fs) ← planFields literal position (planValue fuel) a o (keys o) 1 s
        return (s, construct fs m)

/-- The chunk for a value. -/
def planChunk (fuel : ℕ) (r : Ref α) : Option Chunk := do
  let (s, e) ← planValue v literal position keys H fuel ⟨fun _ => none, []⟩ .root r
  if s.late = [] then return .expression e
  else return .block v e (s.late.filterMap (s.stmt v)) (.var v)

end Walk

/-! ## What is left empty -/

variable {s s' s'' : PlanState}

/-- The entries of a table: its metatable, and its pairs. -/
def entries (o : Object α) : List (Option (Ref α) × Ref α) :=
  o.metatable.toList.map (fun m => (none, .table m)) ++ o.pairs.map fun p => (some p.1, p.2)

/-- The entry of a table at a place that is left empty. -/
def entryAt (C : Constants α) (a : ℕ) : Place × ℕ → Option (Option (Ref α) × Ref α)
  | (.root, _) => none
  | (.slot c key, b) =>
    if c = a then some (key.map fun l => .atom (C.value l), .table b) else none

variable (C : Constants α)

/-- The entries of a table that are left empty. -/
def pending (late : List (Place × ℕ)) (a : ℕ) : List (Option (Ref α) × Ref α) :=
  late.filterMap (entryAt C a)

@[simp]
theorem pending_append (l l' : List (Place × ℕ)) (a : ℕ) :
    pending C (l ++ l') a = pending C l a ++ pending C l' a := List.filterMap_append ..

/-- Places that are left empty have a path, and so have the tables that belong there. -/
structure PlanState.Wf (s : PlanState) : Prop where
  place : ∀ {a key b}, (Place.slot a key, b) ∈ s.late → s.defined a ≠ none
  table : ∀ {place b}, (place, b) ∈ s.late → s.defined b ≠ none

theorem PlanState.wf_initial : (⟨fun _ => none, []⟩ : PlanState).Wf :=
  ⟨by rintro _ _ _ ⟨⟩, by rintro _ _ ⟨⟩⟩

theorem PlanState.Wf.pending_eq_nil (hs : s.Wf) {a : ℕ} (ha : s.defined a = none) :
    pending C s.late a = [] := by
  rw [pending, List.filterMap_eq_nil_iff]
  rintro ⟨_ | ⟨c, key⟩, b⟩ hmem
  · rfl
  · rw [entryAt, if_neg]
    rintro rfl
    exact hs.place hmem ha

/-- From `s` to `s'` the walk has gone on, and has left the places `own` empty, besides places of
new tables. -/
structure Walks (s s' : PlanState) (own : List (Place × ℕ)) : Prop where
  grows : ∀ {a p}, s.defined a = some p → s'.defined a = some p
  wf : s.Wf → s'.Wf
  pending : ∀ {a}, s.defined a ≠ none → pending C s'.late a = pending C s.late a ++ pending C own a

variable {C} {own own' : List (Place × ℕ)}

theorem Walks.defined_ne_none (h : Walks C s s' own) {a : ℕ} (ha : s.defined a ≠ none) :
    s'.defined a ≠ none := by
  obtain ⟨p, hp⟩ := Option.ne_none_iff_exists'.1 ha
  rw [h.grows hp]
  exact Option.some_ne_none p

theorem Walks.refl (C : Constants α) (s : PlanState) : Walks C s s [] :=
  ⟨id, id, fun _ => (List.append_nil _).symm⟩

theorem Walks.trans (h : Walks C s s' own) (h' : Walks C s' s'' own') :
    Walks C s s'' (own ++ own') := by
  refine ⟨fun ha => h'.grows (h.grows ha), fun hs => h'.wf (h.wf hs), fun ha => ?_⟩
  rw [h'.pending (h.defined_ne_none ha), h.pending ha, pending_append, List.append_assoc]

/-- The table that a place belongs to has a path. -/
def Place.Open (s : PlanState) : Place → Prop
  | root => True
  | slot a _ => s.defined a ≠ none

namespace PlanState

theorem Wf.leave (hs : s.Wf) {place : Place} (hplace : place.Open s) {b : ℕ}
    (hb : s.defined b ≠ none) : (s.leave place b).Wf := by
  constructor
  · rintro a key b' hmem
    rcases List.mem_append.1 hmem with hmem | hmem
    · exact hs.place hmem
    · obtain ⟨rfl, -⟩ := Prod.mk.inj (List.mem_singleton.1 hmem)
      exact hplace
  · rintro place' b' hmem
    rcases List.mem_append.1 hmem with hmem | hmem
    · exact hs.table hmem
    · obtain ⟨-, rfl⟩ := Prod.mk.inj (List.mem_singleton.1 hmem)
      exact hb

theorem defined_enter_self (s : PlanState) (a : ℕ) (p : Path) :
    (s.enter a p).defined a = some p := Function.update_self ..

theorem defined_enter_of_ne (s : PlanState) {a b : ℕ} (p : Path) (h : b ≠ a) :
    (s.enter a p).defined b = s.defined b := Function.update_of_ne h ..

theorem defined_enter {a b : ℕ} {q : Path} (ha : s.defined a = none) (p : Path)
    (hb : s.defined b = some q) : (s.enter a p).defined b = some q := by
  rw [s.defined_enter_of_ne p, hb]
  rintro rfl
  cases ha.symm.trans hb

theorem Wf.enter (hs : s.Wf) {a : ℕ} (ha : s.defined a = none) (p : Path) : (s.enter a p).Wf := by
  have hdefined : ∀ {b}, s.defined b ≠ none → (s.enter a p).defined b ≠ none := by
    intro b hb
    obtain ⟨q, hq⟩ := Option.ne_none_iff_exists'.1 hb
    rw [defined_enter ha p hq]
    exact Option.some_ne_none q
  exact ⟨fun h => hdefined (hs.place h), fun h => hdefined (hs.table h)⟩

end PlanState

theorem Walks.leave {place : Place} (hplace : place.Open s) {b : ℕ} (hb : s.defined b ≠ none) :
    Walks C s (s.leave place b) [(place, b)] :=
  ⟨id, fun hs => hs.leave hplace hb, fun _ => pending_append C ..⟩

theorem Walks.enter {a : ℕ} (ha : s.defined a = none) (p : Path) : Walks C s (s.enter a p) [] :=
  ⟨PlanState.defined_enter ha p, fun hs => hs.enter ha p, fun _ => (List.append_nil _).symm⟩

/-! ## The calls -/

section Calls

variable {v : Str} {literal : α → Option Literal} {position : ℕ → α}
  {keys : Object α → List (Ref α)} [DecidableEq α] {H : Heap α}

theorem planValue_atom (fuel : ℕ) (s : PlanState) (place : Place) (x : α) :
    planValue v literal position keys H fuel s place (.atom x) =
      (literal x).map fun l => (s, .literal l) := by
  cases fuel <;> rfl

/-- A table that has been come to. -/
theorem planValue_of_defined (fuel : ℕ) (place : Place) {a : ℕ} (h : s.defined a ≠ none) :
    planValue v literal position keys H fuel s place (.table a) =
      some (s.leave place a, .nil) := by
  obtain ⟨p, hp⟩ := Option.ne_none_iff_exists'.1 h
  cases fuel <;> simp only [planValue, hp]

theorem planValue_zero (place : Place) {a : ℕ} (h : s.defined a = none) :
    planValue v literal position keys H 0 s place (.table a) = none := by
  simp only [planValue, h]

/-- A table that is come to for the first time. -/
theorem planValue_succ (fuel : ℕ) (place : Place) {a : ℕ} (h : s.defined a = none) :
    planValue v literal position keys H (fuel + 1) s place (.table a) =
      (H[a]?).bind fun o =>
      (planMetatable (planValue v literal position keys H fuel) a o.metatable
        (s.enter a (place.path v s))).bind fun r =>
      (planFields literal position (planValue v literal position keys H fuel) a o (keys o) 1
        r.1).bind fun r' => some (r'.1, construct r'.2 r.2) := by
  simp only [planValue, h]
  rfl

end Calls

end Jord.Base
