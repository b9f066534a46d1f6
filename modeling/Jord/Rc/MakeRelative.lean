import Jord.Foundations.Follow
import Jord.Rc.PathString

/-!
# Relative paths

`make_relative` of the builder promises a path that leads, from `a_From`, to where `a_To` leads. It
looks at the text of the two paths only. Where a path leads (`resolve`) is read off its components,
no symbolic links being on the way.

`makeRelative_iff` is the exact condition under which the promise is kept: behind the common
beginning, `a_From` takes no step up, or `a_To` climbs to the root. A step up in `a_From` is
answered with a second step up instead of the name that it left.
-/

namespace Jord.Rc

open PathLib PathString PathStore

/-- Where a path leads: the names on the way from the root. -/
def resolve (cwd s : Str) : List Str :=
  follow [] ((posix.components (absolute cwd s)).map component)

/-- The longest beginning that two paths have in common. -/
def commonBase : List Str → List Str → List Str
  | x :: xs, y :: ys => if x = y then x :: commonBase xs ys else []
  | _, _ => []

/-- The path made relative leads, from `a_From`, to where `a_To` leads. -/
def KeepsPromise (cwd aFrom aTo : Str) : Prop :=
  resolve cwd (posix.append aFrom (makeRelative cwd aFrom aTo)) = resolve cwd aTo
deriving Decidable

/-- Behind the common beginning `a_From` takes no step up, or `a_To` climbs from there to the
root. -/
def Answered (cwd aFrom aTo : Str) : Prop :=
  let fromParts := posix.components (absolute cwd aFrom)
  let toParts := posix.components (absolute cwd aTo)
  let base := commonBase fromParts toParts
  Str.ascii ".." ∉ fromParts.drop base.length ∨
    (follow [] (base.map component)).length ≤ climb ((toParts.drop base.length).map component)
deriving Decidable

/-! ## The components of the two paths -/

/-- The first loop of `make_relative` finds the common beginning. -/
theorem commonBase_append (xs ys : List Str) :
    commonBase xs ys ++ (dropCommon xs ys).1 = xs ∧
      commonBase xs ys ++ (dropCommon xs ys).2 = ys := by
  induction xs generalizing ys with
  | nil => cases ys <;> exact ⟨rfl, rfl⟩
  | cons x xs ih =>
    cases ys with
    | nil => exact ⟨rfl, rfl⟩
    | cons y ys =>
      by_cases hxy : x = y
      · subst hxy
        simpa [commonBase, dropCommon] using ih ys
      · simp [commonBase, dropCommon, hxy]

/-- Behind the common beginning the two paths differ at once. -/
theorem head?_dropCommon (xs ys : List Str) (k : Str) (hk : (dropCommon xs ys).1.head? = some k) :
    (dropCommon xs ys).2.head? ≠ some k := by
  induction xs generalizing ys with
  | nil => cases ys <;> cases hk
  | cons x xs ih =>
    cases ys with
    | nil => exact fun h => by cases h
    | cons y ys =>
      by_cases hxy : x = y
      · rw [dropCommon, if_pos hxy] at hk ⊢
        exact ih ys hk
      · rw [dropCommon, if_neg hxy] at hk ⊢
        cases hk
        exact fun h => hxy (Option.some.inj h).symm

theorem component_eq_here {k : Str} : component k = .here ↔ k = Str.ascii "." := by
  unfold component
  split_ifs <;> simp_all [Str.ascii, Str.slash]

theorem component_eq_up {k : Str} : component k = .up ↔ k = Str.ascii ".." := by
  unfold component
  split_ifs <;> simp_all [Str.ascii, Str.slash]

theorem component_ne_root {k : Str} (hk : Str.slash ∉ k) : component k ≠ .root := by
  unfold component
  split_ifs <;> simp_all

theorem countP_component (ks : List Str) :
    (ks.map component).countP (· ≠ .here) = ks.countP (· ≠ Str.ascii ".") := by
  simp [List.countP_map, Function.comp_def, component_eq_here]

theorem count_component_eq_zero {ks : List Str} :
    (ks.map component).count .up = 0 ↔ Str.ascii ".." ∉ ks := by
  simp [List.count_eq_zero, component_eq_up]

theorem map_component_root {ks : List Str} (hks : ∀ k ∈ ks, k ≠ [] ∧ Str.slash ∉ k) :
    .root ∉ ks.map component := by
  rw [List.mem_map]
  rintro ⟨k, hk, heq⟩
  exact component_ne_root (hks k hk).2 heq

/-- The slash at the end of a path leads nowhere else. -/
theorem resolve_eq (cwd s : Str) :
    resolve cwd s = follow [] ((tokens (absolute cwd s)).map component) := by
  rw [resolve, components_eq, List.map_append, List.map_append, follow_append, follow_append]
  have hroot : follow [] ((rootOf (absolute cwd s)).map component) = [] := by
    unfold rootOf
    split <;> rfl
  rw [hroot]
  rcases dotOf_eq (absolute cwd s) with hdot | hdot <;> rw [hdot] <;> rfl

/-- In a file tree, a path string leads there if it leads anywhere. -/
theorem FileTree.eq_resolve (T : FileTree) {s : Str} {loc : List Str}
    (h : T.locate s = some loc) : loc = resolve T.currentPath s := by
  rw [FileTree.locate, if_neg (T.ne_nil_of_locate h)] at h
  exact eq_follow_of_locate h

theorem tokens_absolute_append (cwd s : Str) {rel : Str} (hrel : rel.head? ≠ some Str.slash) :
    tokens (absolute cwd (posix.append s rel)) = tokens (absolute cwd s) ++ tokens rel := by
  unfold absolute
  rcases eq_or_ne s [] with rfl | hs
  · rw [nil_append, if_neg hrel, if_neg (by simp), tokens_append, tokens_append, tokens_nil,
      List.append_nil]
  · rw [head?_append hs]
    split
    · exact tokens_append s rel
    · rw [tokens_append, tokens_append, tokens_append, List.append_assoc]

/-- The components of an absolute path behind the root directory. -/
theorem components_of_head? {s : Str} (hs : s.head? = some Str.slash) :
    posix.components s = [Str.slash] :: (tokens s ++ dotOf s) := by
  rw [components_eq, rootOf, if_pos hs]
  rfl

theorem mem_tokens_dotOf {s k : Str} (hk : k ∈ tokens s ++ dotOf s) : k ≠ [] ∧ Str.slash ∉ k := by
  rcases List.mem_append.1 hk with hk | hk
  · exact mem_tokens hk
  · rcases dotOf_eq s with hdot | hdot
    · simp [hdot] at hk
    · rw [hdot, List.mem_singleton] at hk
      subst hk
      decide

theorem head?_absolute {cwd : Str} (hcwd : cwd.head? = some Str.slash) (s : Str) :
    (absolute cwd s).head? = some Str.slash := by
  unfold absolute
  split
  · assumption
  · rwa [head?_append]
    rintro rfl
    cases hcwd

/-! ## The relative path -/

/-- The loop of `make_relative` that navigates backwards appends steps up. -/
theorem tokens_foldl_up (ks : List Str) (ret : Str) :
    tokens (ks.foldl (fun ret dir =>
      if dir ≠ Str.ascii "." then posix.append ret (Str.ascii "..") else ret) ret) =
      tokens ret ++ List.replicate (ks.countP (· ≠ Str.ascii ".")) (Str.ascii "..") := by
  induction ks generalizing ret with
  | nil => simp
  | cons k ks ih =>
    rw [List.foldl_cons, ih]
    by_cases hk : k = Str.ascii "."
    · simp [hk]
    · have hup : tokens (Str.ascii "..") = [Str.ascii ".."] := by decide
      simp [hk, tokens_append, hup, List.replicate_succ]

theorem head?_foldl_up (ks : List Str) {ret : Str} (hret : ret.head? ≠ some Str.slash) :
    (ks.foldl (fun ret dir =>
      if dir ≠ Str.ascii "." then posix.append ret (Str.ascii "..") else ret) ret).head? ≠
      some Str.slash := by
  induction ks generalizing ret with
  | nil => exact hret
  | cons k ks ih =>
    rw [List.foldl_cons]
    apply ih
    split
    · rcases eq_or_ne ret [] with rfl | hne
      · decide
      · rwa [head?_append hne]
    · exact hret

theorem getLast?_foldl_up (ks : List Str) {ret : Str} (hret : ret.getLast? ≠ some Str.slash) :
    (ks.foldl (fun ret dir =>
      if dir ≠ Str.ascii "." then posix.append ret (Str.ascii "..") else ret) ret).getLast? ≠
      some Str.slash := by
  induction ks generalizing ret with
  | nil => exact hret
  | cons k ks ih =>
    rw [List.foldl_cons]
    apply ih
    split
    · rw [getLast?_append ret (by decide)]
      decide
    · exact hret

/-- What `make_relative` leaves of the two paths behind the common base `base`. -/
structure Split (cwd aFrom aTo : Str) (base itrFrom itrTo : List Str) : Prop where
  distinct : ∀ k, itrFrom.head? = some k → itrTo.head? ≠ some k
  tokens_from : base ++ itrFrom = tokens (absolute cwd aFrom) ++ dotOf (absolute cwd aFrom)
  tokens_to : base ++ itrTo = tokens (absolute cwd aTo) ++ dotOf (absolute cwd aTo)
  tokens_rel : tokens (makeRelative cwd aFrom aTo) =
    List.replicate (itrFrom.countP (· ≠ Str.ascii ".")) (Str.ascii "..") ++ itrTo
  head_rel : (makeRelative cwd aFrom aTo).head? ≠ some Str.slash
  last_rel : (makeRelative cwd aFrom aTo).getLast? ≠ some Str.slash
  answered : Answered cwd aFrom aTo ↔ Str.ascii ".." ∉ itrFrom ∨
    (follow [] (base.map component)).length ≤ climb (itrTo.map component)

theorem exists_split {cwd : Str} (hcwd : cwd.head? = some Str.slash) (aFrom aTo : Str) :
    ∃ base itrFrom itrTo, Split cwd aFrom aTo base itrFrom itrTo := by
  have hfrom := components_of_head? (head?_absolute hcwd aFrom)
  have hto := components_of_head? (head?_absolute hcwd aTo)
  set froms := tokens (absolute cwd aFrom) ++ dotOf (absolute cwd aFrom)
  set tos := tokens (absolute cwd aTo) ++ dotOf (absolute cwd aTo) with htos
  have hdrop : dropCommon ([Str.slash] :: froms) ([Str.slash] :: tos) = dropCommon froms tos := by
    simp [dropCommon]
  have hbase : commonBase ([Str.slash] :: froms) ([Str.slash] :: tos) =
      [Str.slash] :: commonBase froms tos := by
    simp [commonBase]
  obtain ⟨hsplitFrom, hsplitTo⟩ := commonBase_append froms tos
  have hvalid : ∀ k ∈ (dropCommon froms tos).2, k ≠ [] ∧ Str.slash ∉ k := fun k hk =>
    mem_tokens_dotOf (s := absolute cwd aTo) (htos ▸ hsplitTo ▸ List.mem_append_right _ hk)
  refine ⟨commonBase froms tos, (dropCommon froms tos).1, (dropCommon froms tos).2,
    head?_dropCommon froms tos, hsplitFrom, hsplitTo, ?_, ?_, ?_, ?_⟩
  · simp only [makeRelative, hfrom, hto, hdrop]
    rw [tokens_foldl_append hvalid, tokens_foldl_up, tokens_nil, List.nil_append]
  · simp only [makeRelative, hfrom, hto, hdrop]
    exact head?_foldl_append hvalid (head?_foldl_up _ (by simp))
  · simp only [makeRelative, hfrom, hto, hdrop]
    exact getLast?_foldl_append hvalid (getLast?_foldl_up _ (by simp))
  · have hrest {xs ys zs : List Str} (h : xs ++ ys = zs) : zs.drop xs.length = ys :=
      h ▸ List.drop_left
    simp only [Answered, hfrom, hto, hbase, List.length_cons, List.drop_succ_cons,
      hrest hsplitFrom, hrest hsplitTo]
    rfl

/-- **When the promise of `make_relative` is kept.** -/
theorem makeRelative_iff {cwd : Str} (hcwd : cwd.head? = some Str.slash) (aFrom aTo : Str) :
    KeepsPromise cwd aFrom aTo ↔ Answered cwd aFrom aTo := by
  obtain ⟨base, itrFrom, itrTo, hs⟩ := exists_split hcwd aFrom aTo
  set loc := follow [] (base.map component) with hloc
  have hvalidTo : ∀ k ∈ itrTo, k ≠ [] ∧ Str.slash ∉ k := fun k hk =>
    mem_tokens_dotOf (s := absolute cwd aTo) (hs.tokens_to ▸ List.mem_append_right _ hk)
  have hvalidFrom : ∀ k ∈ itrFrom, k ≠ [] ∧ Str.slash ∉ k := fun k hk =>
    mem_tokens_dotOf (s := absolute cwd aFrom) (hs.tokens_from ▸ List.mem_append_right _ hk)
  have hfollow : ∀ s rest, base ++ rest = tokens (absolute cwd s) ++ dotOf (absolute cwd s) →
      follow [] ((tokens (absolute cwd s)).map component) = follow loc (rest.map component) := by
    intro s rest h
    rw [hloc, ← follow_append, ← List.map_append, h, List.map_append, follow_append]
    rcases dotOf_eq (absolute cwd s) with hdot | hdot <;> rw [hdot] <;> rfl
  -- the way from `a_From` goes back over the rest of it and then along the rest of `a_To`
  have hfrom : resolve cwd (posix.append aFrom (makeRelative cwd aFrom aTo)) =
      follow (loc.take (loc.length - 2 * (itrFrom.map component).count .up))
        (itrTo.map component) := by
    have hup : component (Str.ascii "..") = .up := by decide
    rw [resolve_eq, tokens_absolute_append cwd aFrom hs.head_rel, hs.tokens_rel, List.map_append,
      List.map_append, List.map_replicate, hup, follow_append, hfollow _ _ hs.tokens_from,
      follow_append, ← follow_append loc, ← countP_component,
      follow_ups (map_component_root hvalidFrom)]
  have hdouble (n : ℕ) : 2 * n = 0 ↔ n = 0 := by omega
  rw [KeepsPromise, hfrom, resolve_eq, hfollow _ _ hs.tokens_to,
    follow_take_eq_iff (map_component_root hvalidTo), hs.answered, ← count_component_eq_zero,
    ← hloc, hdouble]

theorem makeRelative_iff_sibling : KeepsPromise (Str.ascii "/w") (Str.ascii "a/b") (Str.ascii "c") ↔
    Answered (Str.ascii "/w") (Str.ascii "a/b") (Str.ascii "c") :=
  makeRelative_iff (by decide) _ _

/-- From `/x/a/..` to `/x/b` the relative path is `../../b`, which leads to `/b`. -/
theorem makeRelative_counterexample :
    ¬ KeepsPromise (Str.ascii "/") (Str.ascii "/x/a/..") (Str.ascii "/x/b") := by
  decide

end Jord.Rc
