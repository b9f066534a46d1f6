import Mathlib.Tactic.Common

/-!
# Fields of a list

The parts of a list between separators, empty ones left out (`fields`), and the scanner that cuts
the first of them off and returns what follows it (`nextField`). A scanner that is called again and
again finds the fields in their order (`fields_eq`) and consumes the list
(`length_lt_of_nextField`).

`substitute` puts a list in the place of every occurrence of an element.
-/

namespace Jord

variable {α : Type*} [DecidableEq α]

/-- The nonempty parts of a list between the separators. -/
def fields (sep : α) (s : List α) : List (List α) := (s.splitOn sep).filter (· ≠ [])

/-- The first field of a list and what follows it, after any separators at the start. -/
def nextField (sep : α) (s : List α) : Option (List α × List α) :=
  match s.dropWhile (· = sep) with
  | [] => none
  | c :: s => some ((c :: s).takeWhile (· ≠ sep), (c :: s).dropWhile (· ≠ sep))

/-- The list with `r` in the place of every `p`. -/
def substitute (p : α) (r s : List α) : List α := s.flatMap fun c => if c = p then r else [c]

variable {sep : α} {s t : List α}

@[simp] theorem fields_nil (sep : α) : fields sep [] = [] := rfl

theorem fields_append_cons (sep : α) (s t : List α) :
    fields sep (s ++ sep :: t) = fields sep s ++ fields sep t := by
  rw [fields, List.splitOn_append_cons_self, List.filter_append]
  rfl

theorem fields_cons (sep : α) (s : List α) : fields sep (sep :: s) = fields sep s :=
  fields_append_cons sep [] s

theorem fields_of_notMem (hne : s ≠ []) (hs : sep ∉ s) : fields sep s = [s] := by
  simp [fields, List.splitOn_eq_singleton hs, hne]

theorem fields_dropWhile (sep : α) (s : List α) :
    fields sep (s.dropWhile (· = sep)) = fields sep s := by
  induction s with
  | nil => rfl
  | cons c s ih =>
    by_cases hc : c = sep
    · subst hc
      rw [List.dropWhile_cons_of_pos (by simp), ih, fields_cons]
    · rw [List.dropWhile_cons_of_neg (by simpa using hc)]

/-- **A scanner finds the fields in their order.** -/
theorem fields_eq (sep : α) (s : List α) : fields sep s = match nextField sep s with
    | none => []
    | some (field, rest) => field :: fields sep rest := by
  rw [← fields_dropWhile, nextField]
  cases hdrop : s.dropWhile (· = sep) with
  | nil => rfl
  | cons c rest =>
    have hc : c ≠ sep := by
      have := List.head?_dropWhile_not (fun x => decide (x = sep)) s
      simpa [hdrop] using this
    set field := (c :: rest).takeWhile (· ≠ sep) with hfield
    have hne : field ≠ [] := by simp [hfield, hc]
    have hnotMem : sep ∉ field := fun hmem => by
      simpa using List.all_eq_true.1 List.all_takeWhile _ hmem
    have hsplit : c :: rest = field ++ (c :: rest).dropWhile (· ≠ sep) :=
      List.takeWhile_append_dropWhile.symm
    change fields sep (c :: rest) = field :: fields sep ((c :: rest).dropWhile (· ≠ sep))
    cases htail : (c :: rest).dropWhile (· ≠ sep) with
    | nil =>
      rw [htail, List.append_nil] at hsplit
      rw [hsplit, fields_of_notMem hne hnotMem, fields_nil]
    | cons d tail =>
      have hd : d = sep := by
        have := List.head?_dropWhile_not (fun x => decide (x ≠ sep)) (c :: rest)
        rw [htail] at this
        simpa using this
      subst hd
      rw [htail] at hsplit
      rw [hsplit, fields_append_cons, fields_of_notMem hne hnotMem, fields_cons]
      rfl

/-- A scanner consumes what it finds. -/
theorem length_lt_of_nextField {field rest : List α} (h : nextField sep s = some (field, rest)) :
    rest.length < s.length := by
  unfold nextField at h
  split at h
  · cases h
  · next c tail hdrop =>
    cases h
    have hc : c ≠ sep := by
      have := List.head?_dropWhile_not (fun x => decide (x = sep)) s
      simpa [hdrop] using this
    rw [List.dropWhile_cons_of_pos (by simpa using hc)]
    have htail := (tail.dropWhile_sublist fun x => decide (x ≠ sep)).length_le
    have hs := (s.dropWhile_sublist fun x => decide (x = sep)).length_le
    rw [hdrop, List.length_cons] at hs
    omega

/-- What is found lies in the list. -/
theorem subset_of_nextField {field rest : List α} (h : nextField sep s = some (field, rest)) :
    field ⊆ s ∧ rest ⊆ s := by
  unfold nextField at h
  split at h
  · cases h
  · next c tail hdrop =>
    cases h
    have hs : (c :: tail).Sublist s := hdrop ▸ s.dropWhile_sublist _
    exact ⟨(((c :: tail).takeWhile_sublist _).trans hs).subset,
      (((c :: tail).dropWhile_sublist _).trans hs).subset⟩

end Jord
