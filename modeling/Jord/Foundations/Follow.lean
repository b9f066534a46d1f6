import Jord.Foundations.Locate

/-!
# Resolving paths by their text

Where a path leads when every name on it leads to a directory (`follow`): a dot stays, two dots lead
to the parent and stop at the root. `climb` is how far a path goes above its start before it ends.

* `eq_follow_of_locate`: in a tree, a path leads there if it leads anywhere.
* `follow_ups`: a path and then one step up for each of its components that is no dot. Two dots go
  up and are answered with a second step up, so the way does not end where it started.
* `follow_take_eq_iff`: when a path leads from a place above to where it leads from a place itself.
-/

namespace Jord.PathStore

variable {κ α : Type*}

/-- One component by its text. -/
def move (loc : List κ) : Component κ → List κ
  | .root => []
  | .here => loc
  | .up => loc.dropLast
  | .name k => loc ++ [k]

/-- The place a path leads to by its text. -/
def follow (loc : List κ) (cs : List (Component κ)) : List κ := cs.foldl move loc

/-- How far a path climbs above the place where it starts. -/
def climb : List (Component κ) → ℕ
  | [] => 0
  | .up :: cs => climb cs + 1
  | .name _ :: cs => climb cs - 1
  | .here :: cs => climb cs
  | .root :: cs => climb cs

@[simp] theorem follow_nil (loc : List κ) : follow loc [] = loc := rfl

@[simp] theorem follow_cons (loc : List κ) (c : Component κ) (cs : List (Component κ)) :
    follow loc (c :: cs) = follow (move loc c) cs := rfl

theorem follow_append (loc : List κ) (cs cs' : List (Component κ)) :
    follow loc (cs ++ cs') = follow (follow loc cs) cs' :=
  List.foldl_append

/-- **Resolving by the text agrees with the tree** on paths that lead somewhere. -/
theorem eq_follow_of_locate {s : PathStore κ α} {loc loc' : List κ} {cs : List (Component κ)}
    (h : s.locate loc cs = some loc') : loc' = follow loc cs := by
  induction cs generalizing loc with
  | nil => exact (Option.some.inj h).symm
  | cons c cs ih =>
    obtain ⟨mid, hmid, h⟩ := Option.bind_eq_some_iff.1 h
    have hd := directory_of_step hmid
    have hmove : mid = move loc c := by
      obtain ⟨hroot, hhere, hup⟩ := step_of_directory hd
      cases c with
      | root => exact (Option.some.inj (hroot.symm.trans hmid)).symm
      | here => exact (Option.some.inj (hhere.symm.trans hmid)).symm
      | up => exact (Option.some.inj (hup.symm.trans hmid)).symm
      | name k =>
        simp only [step, hd, Option.map_eq_some_iff] at hmid
        obtain ⟨-, -, rfl⟩ := hmid
        rfl
    rw [follow_cons, ← hmove]
    exact ih h

section Back

variable [DecidableEq κ]

/-- **The way back.** After a path, one step up for each component that is no dot leads to a place
above the start, twice as far as the path has steps up. -/
theorem follow_ups {cs : List (Component κ)} (hroot : .root ∉ cs) (loc : List κ) :
    follow loc (cs ++ List.replicate (cs.countP (· ≠ .here)) .up) =
      loc.take (loc.length - 2 * cs.count .up) := by
  induction cs generalizing loc with
  | nil => simp
  | cons c cs ih =>
    obtain ⟨hc, htail⟩ := not_or.1 (mt List.mem_cons.2 hroot)
    -- a step up at the very end drops the last name
    have hlast : ∀ n, follow loc ((c :: cs) ++ List.replicate (n + 1) .up) =
        (follow (move loc c) (cs ++ List.replicate n .up)).dropLast := fun n => by
      rw [List.replicate_succ', ← List.append_assoc, follow_append]
      rfl
    cases c with
    | root => exact absurd rfl hc
    | here =>
      have hcount : (Component.here :: cs).countP (· ≠ .here) = cs.countP (· ≠ .here) := by simp
      rw [hcount, List.count_cons_of_ne (by simp)]
      exact ih htail loc
    | up =>
      have hcount : (Component.up :: cs).countP (· ≠ .here) = cs.countP (· ≠ .here) + 1 := by simp
      rw [hcount, hlast, ih htail, List.count_cons_self, move, List.length_dropLast,
        List.dropLast_eq_take, List.dropLast_eq_take, List.take_take, List.take_take,
        List.length_take, List.length_take]
      congr 1
      omega
    | name k =>
      have hcount : (Component.name k :: cs).countP (· ≠ .here) =
          cs.countP (· ≠ .here) + 1 := by simp
      rw [hcount, hlast, ih htail, List.count_cons_of_ne (by simp), move]
      rcases Nat.eq_zero_or_pos (cs.count .up) with hzero | hpos
      · rw [hzero, Nat.mul_zero, Nat.sub_zero, Nat.sub_zero, List.take_length, List.take_length,
          List.dropLast_concat]
      · rw [List.length_append, List.length_singleton, List.take_append_of_le_length (by omega),
          List.dropLast_eq_take, List.take_take,
          List.length_take]
        congr 1
        omega

end Back

/-- A path that climbs as far as the root forgets where it started. -/
theorem follow_of_le_climb {cs : List (Component κ)} {loc loc' : List κ}
    (h : loc.length ≤ climb cs) (h' : loc'.length ≤ climb cs) : follow loc cs = follow loc' cs := by
  induction cs generalizing loc loc' with
  | nil =>
    obtain rfl := List.eq_nil_of_length_eq_zero (Nat.le_zero.1 h)
    obtain rfl := List.eq_nil_of_length_eq_zero (Nat.le_zero.1 h')
    rfl
  | cons c cs ih =>
    cases c with
    | root => rfl
    | here => exact ih h h'
    | up =>
      simp only [climb] at h h'
      apply ih
      · rw [move, List.length_dropLast]
        omega
      · rw [move, List.length_dropLast]
        omega
    | name k =>
      simp only [climb] at h h'
      rcases Nat.eq_zero_or_pos (climb cs) with hzero | hpos
      · -- both start at the root
        obtain rfl := List.eq_nil_of_length_eq_zero (by omega : loc.length = 0)
        obtain rfl := List.eq_nil_of_length_eq_zero (by omega : loc'.length = 0)
        rfl
      · apply ih
        · rw [move, List.length_append, List.length_singleton]
          omega
        · rw [move, List.length_append, List.length_singleton]
          omega

/-- A path that does not climb to the root from the lower of two places ends lower from there. -/
theorem length_follow_lt {cs : List (Component κ)} (hroot : .root ∉ cs) {loc loc' : List κ}
    (hlt : loc'.length < loc.length) (hclimb : climb cs < loc.length) :
    (follow loc' cs).length < (follow loc cs).length := by
  induction cs generalizing loc loc' with
  | nil => exact hlt
  | cons c cs ih =>
    obtain ⟨hc, htail⟩ := not_or.1 (mt List.mem_cons.2 hroot)
    cases c with
    | root => exact absurd rfl hc
    | here => exact ih htail hlt hclimb
    | up =>
      simp only [climb] at hclimb
      apply ih htail
      · rw [move, move, List.length_dropLast, List.length_dropLast]
        omega
      · rw [move, List.length_dropLast]
        omega
    | name k =>
      simp only [climb] at hclimb
      apply ih htail
      · simpa only [move, List.length_append, List.length_singleton] using
          Nat.add_lt_add_right hlt 1
      · rw [move, List.length_append, List.length_singleton]
        omega

/-- **Starting higher up.** A path leads from a place some steps above to where it leads from the
place itself exactly if there are no such steps or the path climbs to the root. -/
theorem follow_take_eq_iff {cs : List (Component κ)} (hroot : .root ∉ cs) (loc : List κ) (n : ℕ) :
    follow (loc.take (loc.length - n)) cs = follow loc cs ↔ n = 0 ∨ loc.length ≤ climb cs := by
  have hlength : (loc.take (loc.length - n)).length = loc.length - n := by
    rw [List.length_take]
    omega
  constructor
  · intro heq
    by_contra hne
    obtain ⟨hn, hclimb⟩ := not_or.1 hne
    have hlt : (loc.take (loc.length - n)).length < loc.length := by omega
    have := length_follow_lt hroot hlt (by omega)
    rw [heq] at this
    exact lt_irrefl _ this
  · rintro (rfl | hclimb)
    · rw [Nat.sub_zero, List.take_length]
    · exact follow_of_le_climb (by omega) hclimb

end Jord.PathStore
