import Mathlib.Data.List.Nodup
import Jord.Foundations.Forest

/-!
# Following paths

A path as an operating system follows it: each component leads from a directory of a tree to the
root, to the directory itself, to its parent or to one of its entries (`PathStore.locate`). A path
of names leads to the place with these names, if anything is there (`locate_names`).

A forest is the tree of a file system in the order in which its directories are enumerated: `subAt`
is what a directory holds, and `leaves` lists the places of the files of a kind, in the directory or
anywhere below it (`mem_leaves`, `nodup_leaves`).
-/

namespace Jord

/-- A component of a path. -/
inductive Component (κ : Type*)
  | root
  | here
  | up
  | name (k : κ)
  deriving DecidableEq

namespace PathStore

variable {κ α : Type*}

/-- One component from a place. -/
def step (s : PathStore κ α) (loc : List κ) (c : Component κ) : Option (List κ) :=
  match s loc with
  | some .directory =>
    match c with
    | .root => some []
    | .here => some loc
    | .up => some loc.dropLast
    | .name k => (s (loc ++ [k])).map fun _ => loc ++ [k]
  | _ => none

/-- The place a path leads to. -/
def locate (s : PathStore κ α) : List κ → List (Component κ) → Option (List κ)
  | loc, [] => some loc
  | loc, c :: cs => (s.step loc c).bind fun loc' => s.locate loc' cs

variable {s : PathStore κ α} {loc loc' : List κ} {cs : List (Component κ)}

theorem locate_append (cs cs' : List (Component κ)) :
    s.locate loc (cs ++ cs') = (s.locate loc cs).bind fun loc' => s.locate loc' cs' := by
  induction cs generalizing loc with
  | nil => rfl
  | cons c cs ih => simp [locate, ih, Option.bind_assoc]

theorem step_of_directory (hd : s loc = some .directory) :
    s.step loc .root = some [] ∧ s.step loc .here = some loc ∧
      s.step loc .up = some loc.dropLast := by
  simp [step, hd]

/-- A component is followed from directories only. -/
theorem directory_of_step {c : Component κ} (h : s.step loc c = some loc') :
    s loc = some .directory := by
  unfold step at h
  split at h
  · assumption
  · cases h

theorem step_here (h : s.step loc .here = some loc') : loc' = loc ∧ s loc = some .directory := by
  have hd := directory_of_step h
  rw [(step_of_directory hd).2.1] at h
  exact ⟨(Option.some.inj h).symm, hd⟩

theorem step_name {k : κ} (hd : s loc = some .directory) (hk : s (loc ++ [k]) ≠ none) :
    s.step loc (.name k) = some (loc ++ [k]) := by
  obtain ⟨e, he⟩ := Option.ne_none_iff_exists'.1 hk
  simp [step, hd, he]

/-- A dot at the end of a path leads nowhere else, and only to a directory. -/
theorem locate_concat_here (h : s.locate loc (cs ++ [.here]) = some loc') :
    s.locate loc cs = some loc' ∧ s loc' = some .directory := by
  rw [locate_append] at h
  obtain ⟨loc₁, hloc₁, h⟩ := Option.bind_eq_some_iff.1 h
  obtain ⟨loc₂, hstep, h⟩ := Option.bind_eq_some_iff.1 h
  obtain rfl : loc₂ = loc' := Option.some.inj h
  obtain ⟨rfl, hd⟩ := step_here hstep
  exact ⟨hloc₁, hd⟩

/-- A dot in a path that leads somewhere can be left out. -/
theorem locate_here_cons (h : s.locate loc (.here :: cs) = some loc') :
    s.locate loc cs = some loc' := by
  obtain ⟨loc₁, hstep, hrest⟩ := Option.bind_eq_some_iff.1 h
  obtain ⟨rfl, -⟩ := step_here hstep
  exact hrest

/-- **A path of names** leads to the place with these names, if anything is there. -/
theorem locate_names [DecidableEq κ] (hs : s.IsTree) {names : List κ}
    (h : s (loc ++ names) ≠ none) : s.locate loc (names.map .name) = some (loc ++ names) := by
  induction names generalizing loc with
  | nil => exact congrArg some (List.append_nil loc).symm
  | cons k names ih =>
    rw [List.append_cons] at h
    have hk : s (loc ++ [k]) ≠ none := by
      rcases eq_or_ne names [] with rfl | hne
      · rwa [List.append_nil] at h
      · simp [hs _ _ hne h]
    have hd : s loc = some .directory := hs loc [k] (List.cons_ne_nil _ _) hk
    rw [List.map_cons, locate, step_name hd hk, Option.bind_some, ih h, ← List.append_cons]

/-- Steps up lead back to where names have started. -/
theorem locate_ups [DecidableEq κ] (hs : s.IsTree) {names : List κ}
    (h : s (loc ++ names) = some .directory) :
    s.locate (loc ++ names) (List.replicate names.length .up) = some loc := by
  induction names using List.reverseRecOn with
  | nil => exact congrArg some (List.append_nil loc)
  | append_singleton names k ih =>
    have hd : s (loc ++ names) = some .directory := by
      refine hs _ [k] (List.cons_ne_nil _ _) ?_
      rw [List.append_assoc, h]
      exact Option.some_ne_none _
    rw [List.length_append, List.length_singleton, List.replicate_succ, locate,
      (step_of_directory h).2.2, ← List.append_assoc, List.dropLast_concat]
    exact ih hd

end PathStore

namespace Forest

variable {κ α : Type*}

/-- Names are distinct in every directory, and `P` holds of each. -/
def Proper (P : κ → Prop) : Forest κ α → Prop
  | nil => True
  | leaf k _ rest => P k ∧ k ∉ rest.names ∧ rest.Proper P
  | node k sub rest => P k ∧ k ∉ rest.names ∧ sub.Proper P ∧ rest.Proper P

theorem Proper.of_mem_names {P : κ → Prop} {F : Forest κ α} (hF : F.Proper P) {k : κ}
    (hk : k ∈ F.names) : P k := by
  induction F with
  | nil => cases hk
  | leaf k' a rest ih =>
    rcases List.mem_cons.1 hk with rfl | hk
    · exact hF.1
    · exact ih hF.2.2 hk
  | node k' sub rest _ ih =>
    rcases List.mem_cons.1 hk with rfl | hk
    · exact hF.1
    · exact ih hF.2.2.2 hk

/-- The places of the leaves of a kind, at any depth or at the top only. -/
def leaves (deep : Bool) (keep : α → Bool) : Forest κ α → List (List κ)
  | nil => []
  | leaf k a rest => (if keep a then [[k]] else []) ++ rest.leaves deep keep
  | node k sub rest =>
    (if deep then (sub.leaves deep keep).map (k :: ·) else []) ++ rest.leaves deep keep

theorem head_of_mem_leaves {deep : Bool} {keep : α → Bool} {F : Forest κ α} {q : List κ}
    (hq : q ∈ F.leaves deep keep) : ∃ k ∈ F.names, ∃ ks, q = k :: ks := by
  induction F with
  | nil => cases hq
  | leaf k a rest ih =>
    rcases List.mem_append.1 hq with hq | hq
    · split at hq
      · obtain rfl := List.mem_singleton.1 hq
        exact ⟨k, List.mem_cons_self, [], rfl⟩
      · cases hq
    · obtain ⟨k', hk', hks⟩ := ih hq
      exact ⟨k', List.mem_cons_of_mem _ hk', hks⟩
  | node k sub rest _ ih =>
    rcases List.mem_append.1 hq with hq | hq
    · split at hq
      · obtain ⟨ks, -, rfl⟩ := List.mem_map.1 hq
        exact ⟨k, List.mem_cons_self, ks, rfl⟩
      · cases hq
    · obtain ⟨k', hk', hks⟩ := ih hq
      exact ⟨k', List.mem_cons_of_mem _ hk', hks⟩

theorem cons_notMem_leaves {deep : Bool} {keep : α → Bool} {F : Forest κ α} {k : κ}
    (hk : k ∉ F.names) (ks : List κ) : k :: ks ∉ F.leaves deep keep := by
  intro hmem
  obtain ⟨k', hk', ks', heq⟩ := head_of_mem_leaves hmem
  exact hk ((List.cons.inj heq).1 ▸ hk')

theorem nil_notMem_leaves {deep : Bool} {keep : α → Bool} (F : Forest κ α) :
    [] ∉ F.leaves deep keep := by
  intro hmem
  obtain ⟨k, -, ks, heq⟩ := head_of_mem_leaves hmem
  cases heq

/-- No place is listed twice. -/
theorem nodup_leaves {P : κ → Prop} {deep : Bool} {keep : α → Bool} {F : Forest κ α}
    (hF : F.Proper P) : (F.leaves deep keep).Nodup := by
  induction F with
  | nil => exact List.nodup_nil
  | leaf k a rest ih =>
    obtain ⟨-, hk, hrest⟩ := hF
    refine List.nodup_append.2 ⟨by split <;> simp, ih hrest, fun q hq q' hq' => ?_⟩
    rintro rfl
    split at hq
    · obtain rfl := List.mem_singleton.1 hq
      exact cons_notMem_leaves hk [] hq'
    · cases hq
  | node k sub rest ihsub ih =>
    obtain ⟨-, hk, hsub, hrest⟩ := hF
    refine List.nodup_append.2 ⟨?_, ih hrest, fun q hq q' hq' => ?_⟩
    · split
      · exact (ihsub hsub).map List.cons_injective
      · exact List.nodup_nil
    · rintro rfl
      split at hq
      · obtain ⟨ks, -, rfl⟩ := List.mem_map.1 hq
        exact cons_notMem_leaves hk ks hq'
      · cases hq

variable [DecidableEq κ]

/-- What lies above an entry is a directory. -/
theorem entryAt_isTree (F : Forest κ α) : F.entryAt.IsTree := by
  intro p q hq hne
  induction F generalizing p with
  | nil =>
    cases p with
    | nil => rfl
    | cons k p => exact absurd rfl hne
  | leaf k a rest ih =>
    cases p with
    | nil => rfl
    | cons k' p =>
      rw [List.cons_append, entryAt] at hne
      rw [entryAt]
      split at hne
      · rw [if_neg fun h => hq (List.append_eq_nil_iff.1 h).2] at hne
        exact absurd rfl hne
      · next hk =>
        rw [if_neg hk]
        exact ih (k' :: p) hne
  | node k sub rest ihsub ih =>
    cases p with
    | nil => rfl
    | cons k' p =>
      rw [List.cons_append, entryAt] at hne
      rw [entryAt]
      split at hne
      · next hk =>
        rw [if_pos hk]
        exact ihsub p hne
      · next hk =>
        rw [if_neg hk]
        exact ih (k' :: p) hne

/-- What the directory at a place holds. -/
def subAt : Forest κ α → List κ → Option (Forest κ α)
  | F, [] => some F
  | nil, _ :: _ => none
  | leaf k _ rest, k' :: ks => if k' = k then none else rest.subAt (k' :: ks)
  | node k sub rest, k' :: ks => if k' = k then sub.subAt ks else rest.subAt (k' :: ks)

theorem subAt_nil (F : Forest κ α) : F.subAt [] = some F := by
  cases F <;> rfl

theorem size_le_of_subAt {F S : Forest κ α} {p : List κ} (h : F.subAt p = some S) :
    S.size ≤ F.size := by
  induction F generalizing p with
  | nil =>
    cases p with
    | nil => exact (Option.some.inj h) ▸ le_rfl
    | cons k p => cases h
  | leaf k a rest ih =>
    cases p with
    | nil => exact (Option.some.inj h) ▸ le_rfl
    | cons k' p =>
      rw [subAt] at h
      split at h
      · cases h
      · exact (ih h).trans (Nat.le_succ _)
  | node k sub rest ihsub ih =>
    cases p with
    | nil => exact (Option.some.inj h) ▸ le_rfl
    | cons k' p =>
      rw [subAt] at h
      rw [size]
      split at h
      · have := ihsub h
        omega
      · have := ih h
        omega

/-- A function of a forest and a path that looks for the path name by name. -/
structure Descends {β : Type*} (g : Forest κ α → List κ → β) : Prop where
  past_leaf : ∀ {k k' : κ} {a : α} {rest : Forest κ α} {ks : List κ}, k' ≠ k →
    g (leaf k a rest) (k' :: ks) = g rest (k' :: ks)
  into_node : ∀ {k : κ} {sub rest : Forest κ α} {ks : List κ},
    g (node k sub rest) (k :: ks) = g sub ks
  past_node : ∀ {k k' : κ} {sub rest : Forest κ α} {ks : List κ}, k' ≠ k →
    g (node k sub rest) (k' :: ks) = g rest (k' :: ks)

/-- Below a directory it depends on what the directory holds. -/
theorem Descends.append {β : Type*} {g : Forest κ α → List κ → β} (hg : Descends g)
    {F S : Forest κ α} {p : List κ} (hS : F.subAt p = some S) (q : List κ) :
    g F (p ++ q) = g S q := by
  induction F generalizing p with
  | nil =>
    cases p with
    | nil => cases hS; rfl
    | cons k p => cases hS
  | leaf k a rest ih =>
    cases p with
    | nil => cases hS; rfl
    | cons k' p =>
      rw [subAt] at hS
      split at hS
      · cases hS
      · next hk => rw [List.cons_append, hg.past_leaf hk, ← List.cons_append, ih hS]
  | node k sub rest ihsub ih =>
    cases p with
    | nil => cases hS; rfl
    | cons k' p =>
      rw [subAt] at hS
      split at hS
      · next hk =>
        subst hk
        rw [List.cons_append, hg.into_node, ihsub hS]
      · next hk => rw [List.cons_append, hg.past_node hk, ← List.cons_append, ih hS]

theorem entryAt_descends : Descends (entryAt : Forest κ α → PathStore κ α) where
  past_leaf hk := by rw [entryAt, if_neg hk]
  into_node := if_pos rfl
  past_node hk := by rw [entryAt, if_neg hk]

theorem subAt_descends : Descends (subAt : Forest κ α → List κ → Option (Forest κ α)) where
  past_leaf hk := by rw [subAt, if_neg hk]
  into_node := if_pos rfl
  past_node hk := by rw [subAt, if_neg hk]

theorem entryAt_append {F S : Forest κ α} {p : List κ} (hS : F.subAt p = some S) (q : List κ) :
    F.entryAt (p ++ q) = S.entryAt q :=
  entryAt_descends.append hS q

theorem subAt_append {F S : Forest κ α} {p : List κ} (hS : F.subAt p = some S) (q : List κ) :
    F.subAt (p ++ q) = S.subAt q :=
  subAt_descends.append hS q

/-- A directory holds something. -/
theorem subAt_of_directory {P : κ → Prop} {F : Forest κ α} (hF : F.Proper P) {p : List κ}
    (hp : F.entryAt p = some .directory) : ∃ S, F.subAt p = some S ∧ S.Proper P := by
  induction F generalizing p with
  | nil =>
    cases p with
    | nil => exact ⟨_, rfl, hF⟩
    | cons k p => cases hp
  | leaf k a rest ih =>
    cases p with
    | nil => exact ⟨_, rfl, hF⟩
    | cons k' p =>
      rw [entryAt] at hp
      rw [subAt]
      split at hp
      · split at hp <;> cases hp
      · next hk =>
        rw [if_neg hk]
        exact ih hF.2.2 hp
  | node k sub rest ihsub ih =>
    cases p with
    | nil => exact ⟨_, rfl, hF⟩
    | cons k' p =>
      rw [entryAt] at hp
      rw [subAt]
      split at hp
      · next hk =>
        rw [if_pos hk]
        exact ihsub hF.2.2.1 hp
      · next hk =>
        rw [if_neg hk]
        exact ih hF.2.2.2 hp

/-- The names on the way to an entry are proper. -/
theorem Proper.names_of_entryAt {P : κ → Prop} {F : Forest κ α} (hF : F.Proper P) {p : List κ}
    (hp : F.entryAt p ≠ none) : ∀ k ∈ p, P k := by
  induction F generalizing p with
  | nil =>
    cases p with
    | nil => simp
    | cons k p => exact absurd rfl hp
  | leaf k a rest ih =>
    cases p with
    | nil => simp
    | cons k' p =>
      rw [entryAt] at hp
      split at hp
      · next hk =>
        split at hp
        · next hnil => simpa [hk, hnil] using hF.1
        · exact absurd rfl hp
      · exact ih hF.2.2 hp
  | node k sub rest ihsub ih =>
    cases p with
    | nil => simp
    | cons k' p =>
      rw [entryAt] at hp
      split at hp
      · next hk =>
        subst hk
        exact List.forall_mem_cons.2 ⟨hF.1, ihsub hF.2.2.1 hp⟩
      · exact ih hF.2.2.2 hp

/-- The listed places are those of the files of the kind. -/
theorem mem_leaves {P : κ → Prop} {deep : Bool} {keep : α → Bool} {F : Forest κ α}
    (hF : F.Proper P) {q : List κ} : q ∈ F.leaves deep keep ↔
      (∃ a, keep a ∧ F.entryAt q = some (.file a)) ∧ (deep = false → q.length ≤ 1) := by
  have hnil : ∀ F : Forest κ α, ¬ ∃ a, keep a = true ∧ F.entryAt [] = some (.file a) := by
    rintro F ⟨a, -, ha⟩
    rw [entryAt_nil] at ha
    cases ha
  rcases q with _ | ⟨k', ks⟩
  · exact iff_of_false F.nil_notMem_leaves fun h => hnil F h.1
  induction F generalizing k' ks with
  | nil => simp [leaves, entryAt]
  | leaf k a rest ih =>
    obtain ⟨-, hk, hrest⟩ := hF
    rw [leaves, List.mem_append, entryAt]
    by_cases hkk : k' = k
    · subst hkk
      simp only [cons_notMem_leaves hk ks, or_false, if_true]
      by_cases hkeep : keep a <;> by_cases hks : ks = [] <;> simp [hkeep, hks]
    · rw [if_neg hkk]
      refine Iff.trans (or_iff_right_iff_imp.2 ?_) (ih hrest k' ks)
      intro h
      split at h
      · simp [hkk] at h
      · cases h
  | node k sub rest ihsub ih =>
    obtain ⟨-, hk, hsub, hrest⟩ := hF
    rw [leaves, List.mem_append, entryAt]
    by_cases hkk : k' = k
    · subst hkk
      simp only [cons_notMem_leaves hk ks, or_false, if_true]
      cases deep with
      | false =>
        simp only [Bool.false_eq_true, if_false, List.not_mem_nil, false_iff, not_and]
        rintro ⟨b, hb, hentry⟩ hlen
        cases ks with
        | nil => exact hnil sub ⟨b, hb, hentry⟩
        | cons k ks => simp at hlen
      | true =>
        simp only [if_true, List.mem_map, List.cons.injEq, true_and, exists_eq_right]
        cases ks with
        | nil =>
          exact iff_of_false sub.nil_notMem_leaves fun h => hnil sub h.1
        | cons k ks => simpa using ihsub hsub k ks
    · rw [if_neg hkk]
      refine Iff.trans (or_iff_right_iff_imp.2 ?_) (ih hrest k' ks)
      intro h
      split at h
      · obtain ⟨_, -, h⟩ := List.mem_map.1 h
        exact absurd (List.cons.inj h).1.symm hkk
      · cases h

end Forest

end Jord
