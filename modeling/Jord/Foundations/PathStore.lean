import Mathlib.Data.List.Infix
import Mathlib.Tactic.Common

/-!
# Stores of files under paths

A tree of directories and files seen from outside: a partial map from paths to entries, the path
`[]` being the top directory. Writing a file makes directories of the proper prefixes of its path
and removes what was below the path (`put`); it is the abstract operation that an insertion into a
concrete tree is compared with.

* `IsTree` says that what lies above an entry is a directory.
* `NoEmptyDir` says that every directory below the top holds an entry (`NoEmptyDir.put`).
* `map` changes the contents of the files and leaves the paths (`map_put`).
-/

namespace Jord.PathStore

/-- What a path leads to. -/
inductive Entry (α : Type*)
  | directory
  | file (a : α)
  deriving DecidableEq

end Jord.PathStore

namespace Jord

/-- A tree of directories and files, as the partial map from its paths to its entries. -/
abbrev PathStore (κ α : Type*) := List κ → Option (PathStore.Entry α)

end Jord

namespace Jord.PathStore

variable {κ α : Type*} [DecidableEq κ]

/-- The store with a childless entry in place of whatever was at the path `p` and below. -/
def place (s : PathStore κ α) (p : List κ) (e : Entry α) : PathStore κ α := fun q =>
  if q = p then some e else if p <+: q then none else s q

/-- The store in which every prefix of `p` is a directory. -/
def mkdirs (s : PathStore κ α) (p : List κ) : PathStore κ α := fun q =>
  if q <+: p then some .directory else s q

/-- The store after a file is written to the path `p`, directories being made on the way. -/
def put (s : PathStore κ α) (p : List κ) (a : α) : PathStore κ α := fun q =>
  if q = p then some (.file a)
  else if q <+: p then some .directory
  else if p <+: q then none
  else s q

omit [DecidableEq κ] in
/-- What lies above an entry is a directory. -/
def IsTree (s : PathStore κ α) : Prop :=
  ∀ p q, q ≠ [] → s (p ++ q) ≠ none → s p = some .directory

omit [DecidableEq κ] in
/-- Every directory but the top one holds an entry. -/
def NoEmptyDir (s : PathStore κ α) : Prop :=
  ∀ p, p ≠ [] → s p = some .directory → ∃ k, s (p ++ [k]) ≠ none

theorem place_mkdirs (s : PathStore κ α) (p : List κ) (k : κ) (a : α) :
    (s.mkdirs p).place (p ++ [k]) (.file a) = s.put (p ++ [k]) a := by
  funext q
  simp only [place, mkdirs, put]
  by_cases hq : q = p ++ [k]
  · simp [hq]
  · have h : q <+: p ++ [k] ↔ q <+: p := by
      rw [List.prefix_concat_iff]
      simp [hq]
    by_cases hqp : q <+: p
    · have : ¬ p ++ [k] <+: q := fun hpq => by
        have := (hpq.trans hqp).length_le
        simp only [List.length_append, List.length_singleton] at this
        omega
      simp [hq, hqp, h, this]
    · simp [hq, hqp, h]

omit [DecidableEq κ] in
/-- Nothing lies below a path that leads nowhere. -/
theorem IsTree.eq_none_below {s : PathStore κ α} (hs : s.IsTree) {p q : List κ}
    (hp : s p = none) (hpq : p <+: q) : s q = none := by
  obtain ⟨r, rfl⟩ := hpq
  by_contra h
  rcases r with _ | ⟨k, r⟩
  · simp [hp] at h
  · simp [hs p (k :: r) (by simp) h] at hp

/-- A new directory at a path that led nowhere is made by `mkdirs` as well. -/
theorem mkdirs_place {s : PathStore κ α} (hs : s.IsTree) {p q : List κ} (hp : s p = none)
    (hpq : p <+: q) : (s.place p .directory).mkdirs q = s.mkdirs q := by
  funext r
  simp only [mkdirs, place]
  by_cases hr : r <+: q
  · simp [hr]
  · have hrp : r ≠ p := fun h => hr (h ▸ hpq)
    by_cases hpr : p <+: r
    · simp [hr, hrp, hpr, hs.eq_none_below hp hpr]
    · simp [hr, hrp, hpr]

/-- Making directories that are already there changes nothing. -/
theorem mkdirs_self {s : PathStore κ α} (hs : s.IsTree) {p : List κ}
    (hp : s p = some .directory) : s.mkdirs p = s := by
  funext q
  simp only [mkdirs]
  split
  · next hq =>
    obtain ⟨r, rfl⟩ := hq
    rcases r with _ | ⟨k, r⟩
    · simpa using hp.symm
    · exact (hs q (k :: r) (by simp) (by simp [hp])).symm
  · rfl

section Laws

variable {s : PathStore κ α} {p q : List κ} {a : α}

theorem put_self : s.put p a p = some (.file a) := by simp [put]

/-- A path neither above nor below the one written keeps its entry. -/
theorem put_of_apart (hqp : ¬ q <+: p) (hpq : ¬ p <+: q) : s.put p a q = s q := by
  have : q ≠ p := fun h => hqp (h ▸ List.prefix_rfl)
  simp [put, this, hqp, hpq]

theorem put_of_below (hpq : p <+: q) (hne : q ≠ p) : s.put p a q = none := by
  have : ¬ q <+: p := fun h => hne (h.eq_of_length_le hpq.length_le)
  simp [put, hne, this, hpq]

theorem put_of_above (hqp : q <+: p) (hne : q ≠ p) : s.put p a q = some .directory := by
  simp [put, hne, hqp]

theorem NoEmptyDir.put (hs : s.NoEmptyDir) : (s.put p a).NoEmptyDir := by
  intro q hq h
  by_cases hqp : q <+: p
  · obtain ⟨r, rfl⟩ := hqp
    rcases r with _ | ⟨k, r⟩
    · rw [List.append_nil, put_self] at h
      cases h
    · refine ⟨k, ?_⟩
      rcases r with _ | ⟨k', r⟩
      · rw [put_self]
        simp
      · rw [put_of_above ⟨k' :: r, by simp⟩ (by simp)]
        simp
  · by_cases hpq : p <+: q
    · rw [put_of_below hpq fun he => hqp (he ▸ List.prefix_rfl)] at h
      cases h
    · rw [put_of_apart hqp hpq] at h
      obtain ⟨k, hk⟩ := hs q hq h
      refine ⟨k, ?_⟩
      by_cases h1 : q ++ [k] <+: p
      · exact absurd ((List.prefix_append q [k]).trans h1) hqp
      · by_cases h2 : p <+: q ++ [k]
        · rcases List.prefix_concat_iff.1 h2 with rfl | h2
          · exact absurd (List.prefix_rfl) h1
          · exact absurd h2 hpq
        · rw [put_of_apart h1 h2]
          exact hk

end Laws

/-! ## Contents -/

/-- The entry with other contents. -/
def Entry.map {β : Type*} (f : α → β) : Entry α → Entry β
  | .directory => .directory
  | .file a => .file (f a)

omit [DecidableEq κ] in
/-- The store with other contents of its files. -/
def map {β : Type*} (f : α → β) (s : PathStore κ α) : PathStore κ β := fun p => (s p).map (.map f)

/-- The store of a top directory without entries. -/
def empty : PathStore κ α := fun p => if p = [] then some .directory else none

omit [DecidableEq κ] in
theorem map_empty {β : Type*} (f : α → β) : (empty : PathStore κ α).map f = empty := by
  funext p
  unfold map empty
  split <;> rfl

/-- Writing a file and changing contents commute. -/
theorem map_put {β : Type*} (f : α → β) (s : PathStore κ α) (p : List κ) (a : α) :
    (s.put p a).map f = (s.map f).put p (f a) := by
  funext q
  unfold map put
  split_ifs <;> rfl

end Jord.PathStore
