import Jord.Foundations.Locate
import Jord.Rc.Builder

/-!
# Path strings

What the operations of `PathLib.posix` do to the names in a path string: `operator/=` concatenates
them (`tokens_append`), `parent_path` drops the last (`tokens_parentPath`).

`makeRelative` is `make_relative` of the builder, and `FileTree` a file system with a current
directory. From a path to what lies below it, `makeRelative` leads through the same components, up
to a dot (`makeRelative_below`).
-/

namespace Jord.Rc.PathString

open PathLib

/-! ## Names in a path -/

/-- The names between the slashes of a path. -/
def tokens (s : Str) : List Str := (Str.split s).filter (· ≠ [])

theorem mem_tokens {s t : Str} (ht : t ∈ tokens s) : t ≠ [] ∧ Str.slash ∉ t := by
  obtain ⟨hmem, hne⟩ := List.mem_filter.1 ht
  exact ⟨by simpa using hne, Str.slash_notMem_of_mem_split hmem⟩

@[simp] theorem tokens_nil : tokens [] = [] := rfl

theorem tokens_append_slash (s t : Str) : tokens (s ++ Str.slash :: t) = tokens s ++ tokens t := by
  have hsplit : Str.split (s ++ Str.slash :: t) = Str.split s ++ Str.split t :=
    List.splitOn_append_cons_self s t
  rw [tokens, hsplit, List.filter_append]
  rfl

theorem tokens_slash_cons (s : Str) : tokens (Str.slash :: s) = tokens s :=
  tokens_append_slash [] s

theorem tokens_name {k : Str} (hne : k ≠ []) (hk : Str.slash ∉ k) : tokens k = [k] := by
  have hsplit : Str.split k = [k] := List.splitOn_eq_singleton hk
  simp [tokens, hsplit, hne]

theorem tokens_ne_nil {s : Str} (hne : s ≠ []) (hroot : s.head? ≠ some Str.slash) :
    tokens s ≠ [] := by
  obtain ⟨c, s, rfl⟩ := List.exists_cons_of_ne_nil hne
  have hc : (c == Str.slash) = false := by simpa using hroot
  obtain ⟨t, ts, hs⟩ := List.exists_cons_of_ne_nil (Str.split_ne_nil s)
  have hsplit : Str.split (c :: s) = (c :: t) :: ts := by
    rw [Str.split, List.splitOn_cons_eq_if_modifyHead, hc, ← Str.split, hs]
    rfl
  simp [tokens, hsplit]

theorem tokens_join {ks : List Str} (hks : ∀ k ∈ ks, k ≠ [] ∧ Str.slash ∉ k) :
    tokens (Str.join ks) = ks := by
  rcases eq_or_ne ks [] with rfl | hne
  · rfl
  · rw [tokens, Str.split_join hne fun k hk => (hks k hk).2, List.filter_eq_self]
    exact fun k hk => by simpa using (hks k hk).1

/-- **`operator/=` concatenates the names.** -/
theorem tokens_append (p q : Str) : tokens (posix.append p q) = tokens p ++ tokens q := by
  by_cases hq : q = []
  · simp [posix, hq]
  by_cases hp : p = []
  · simp [posix, hp, hq]
  by_cases hend : p.getLast? = some Str.slash
  · obtain ⟨p, rfl⟩ : ∃ p', p = p' ++ [Str.slash] := by
      rw [List.getLast?_eq_some_iff] at hend
      exact hend
    have happend : posix.append (p ++ [Str.slash]) q = p ++ Str.slash :: q := by
      simp [posix, hq]
    rw [happend, tokens_append_slash, tokens_append_slash, tokens_nil, List.append_nil]
  by_cases hstart : q.head? = some Str.slash
  · obtain ⟨q, rfl⟩ := List.head?_eq_some_iff.1 hstart
    have happend : posix.append p (Str.slash :: q) = p ++ Str.slash :: q := by
      simp [posix]
    rw [happend, tokens_append_slash, tokens_slash_cons]
  · have happend : posix.append p q = p ++ Str.slash :: q := by
      simp [posix, hp, hq, hend, hstart]
    rw [happend, tokens_append_slash]

theorem nil_append (q : Str) : posix.append [] q = q := by
  by_cases hq : q = [] <;> simp [posix, hq]

theorem append_ne_nil {p q : Str} (hq : q ≠ []) : posix.append p q ≠ [] := by
  simp only [posix, hq, if_false]
  split <;> simp [hq]

theorem head?_append {p : Str} (hp : p ≠ []) (q : Str) : (posix.append p q).head? = p.head? := by
  obtain ⟨c, p, rfl⟩ := List.exists_cons_of_ne_nil hp
  simp only [posix]
  split
  · rfl
  · split <;> rfl

theorem getLast?_append (p : Str) {q : Str} (hq : q ≠ []) :
    (posix.append p q).getLast? = q.getLast? := by
  simp only [posix, hq, if_false]
  split <;> exact List.getLast?_append_of_ne_nil _ hq

/-- The root directory at the start of a path. -/
def rootOf (s : Str) : List Str := if s.head? = some Str.slash then [[Str.slash]] else []

/-- The dot that the iterators of a path show for a slash at its end. -/
def dotOf (s : Str) : List Str :=
  if tokens s ≠ [] && s.getLast? = some Str.slash then [Str.ascii "."] else []

theorem components_eq (s : Str) : posix.components s = rootOf s ++ tokens s ++ dotOf s := rfl

theorem dotOf_eq (s : Str) : dotOf s = [] ∨ dotOf s = [Str.ascii "."] := by
  unfold dotOf
  split
  · exact .inr rfl
  · exact .inl rfl

theorem rootOf_name {k : Str} (hk : Str.slash ∉ k) : k.head? ≠ some Str.slash := fun hhead =>
  hk (List.mem_of_mem_head? hhead)

theorem getLast?_name {k : Str} (hk : Str.slash ∉ k) : k.getLast? ≠ some Str.slash := fun hlast =>
  hk (List.mem_of_mem_getLast? hlast)

/-- A path that does not end with a slash is some path with a name behind it. -/
theorem eq_append_name {s : Str} (hne : s ≠ []) (hlast : s.getLast? ≠ some Str.slash) :
    ∃ a k, s = a ++ k ∧ k ≠ [] ∧ Str.slash ∉ k ∧ (a = [] ∨ a.getLast? = some Str.slash) := by
  set k := s.reverse.takeWhile (· ≠ Str.slash) with hk
  set a := s.reverse.dropWhile (· ≠ Str.slash) with ha
  have hsplit : s = a.reverse ++ k.reverse := by
    rw [← List.reverse_append, hk, ha, List.takeWhile_append_dropWhile, List.reverse_reverse]
  refine ⟨a.reverse, k.reverse, hsplit, ?_, ?_, ?_⟩
  · intro hnil
    obtain ⟨c, rest, hs⟩ := List.exists_cons_of_ne_nil (mt List.reverse_eq_nil_iff.1 hne)
    have hc : c ≠ Str.slash := by
      rintro rfl
      exact hlast (by rw [← List.head?_reverse, hs]; rfl)
    rw [List.reverse_eq_nil_iff, hk, hs, List.takeWhile_cons_of_pos (by simpa using hc)] at hnil
    cases hnil
  · intro hmem
    have := List.all_eq_true.1 List.all_takeWhile _ (List.mem_reverse.1 hmem)
    simp at this
  · cases hcase : a with
    | nil => exact .inl rfl
    | cons c rest =>
      refine .inr ?_
      have hhead := List.head?_dropWhile_not (fun c : UInt8 => decide (c ≠ Str.slash)) s.reverse
      rw [← ha, hcase] at hhead
      simpa using hhead

theorem tokens_append_slashes (s : Str) (n : ℕ) :
    tokens (s ++ List.replicate n Str.slash) = tokens s := by
  induction n with
  | zero => rw [List.replicate_zero, List.append_nil]
  | succ n ih =>
    rw [List.replicate_succ', ← List.append_assoc, tokens_append_slash, ih, tokens_nil,
      List.append_nil]

/-- The parent of a name behind a path is the path, but for slashes at its end. -/
theorem parentPath_append_name {a k : Str} (hk0 : k ≠ []) (hk : Str.slash ∉ k)
    (ha : a = [] ∨ a.getLast? = some Str.slash) :
    tokens (posix.parentPath (a ++ k)) = tokens a ∧
      ((posix.parentPath (a ++ k)).head? = some Str.slash ↔ (a ++ k).head? = some Str.slash) := by
  have hdrop : (a ++ k).reverse.dropWhile (· ≠ Str.slash) = a.reverse := by
    rw [List.reverse_append, List.dropWhile_append_of_pos]
    · rcases ha with rfl | ha
      · rfl
      · obtain ⟨a, rfl⟩ := List.getLast?_eq_some_iff.1 ha
        simp
    · intro c hc
      rw [List.mem_reverse] at hc
      simpa using fun h : c = Str.slash => hk (h ▸ hc)
  set dir := a.reverse.dropWhile (· = Str.slash) with hdir
  -- between the directory and the name there are slashes only
  obtain ⟨n, hn⟩ : ∃ n, a = dir.reverse ++ List.replicate n Str.slash := by
    refine ⟨(a.reverse.takeWhile (· = Str.slash)).length, ?_⟩
    have hall : ∀ c ∈ a.reverse.takeWhile (· = Str.slash), c = Str.slash := fun c hc => by
      simpa using List.all_eq_true.1 List.all_takeWhile c hc
    rw [← List.reverse_replicate, ← List.eq_replicate_of_mem hall, hdir, ← List.reverse_append,
      List.takeWhile_append_dropWhile, List.reverse_reverse]
  have htokens : tokens a = tokens dir.reverse := by
    rw [hn, tokens_append_slashes]
  have hparent : posix.parentPath (a ++ k) =
      if dir = [] && (a ++ k).head? = some Str.slash && a ++ k ≠ [Str.slash] then [Str.slash]
      else dir.reverse := by
    simp only [posix, hdrop, ← hdir]
  rw [hparent]
  split
  · next h =>
    simp only [Bool.and_eq_true, decide_eq_true_eq] at h
    rw [htokens, h.1.1]
    exact ⟨rfl, iff_of_true rfl h.1.2⟩
  · next h =>
    refine ⟨htokens.symm, ?_⟩
    rcases eq_or_ne dir [] with hnil | hdirne
    · -- then the path is a name
      have hhead : (a ++ k).head? ≠ some Str.slash := by
        intro hhead
        refine h ?_
        have hslash : a ++ k ≠ [Str.slash] := by
          intro heq
          rcases ha with rfl | ha
          · rw [List.nil_append] at heq
            exact hk (heq ▸ List.mem_singleton_self _)
          · obtain ⟨a, rfl⟩ := List.getLast?_eq_some_iff.1 ha
            have hlen := congrArg List.length heq
            have := List.length_pos_iff.2 hk0
            simp only [List.length_append, List.length_singleton] at hlen
            omega
        simp [hnil, hhead, hslash]
      rw [hnil]
      exact iff_of_false (by simp) hhead
    · have hhead : (a ++ k).head? = dir.reverse.head? := by
        obtain ⟨c, rest, hrest⟩ := List.exists_cons_of_ne_nil (mt List.reverse_eq_nil_iff.1 hdirne)
        rw [hn, hrest]
        rfl
      rw [hhead]

/-- **`parent_path` drops the last name.** -/
theorem tokens_parentPath {s : Str} (hlast : s.getLast? ≠ some Str.slash) :
    tokens (posix.parentPath s) = (tokens s).dropLast := by
  rcases eq_or_ne s [] with rfl | hne
  · rfl
  · obtain ⟨a, k, rfl, hk0, hk, ha⟩ := eq_append_name hne hlast
    rw [(parentPath_append_name hk0 hk ha).1]
    rcases ha with rfl | ha
    · simp [tokens_name hk0 hk]
    · obtain ⟨a, rfl⟩ := List.getLast?_eq_some_iff.1 ha
      rw [List.append_assoc, List.singleton_append, tokens_append_slash, tokens_append_slash,
        tokens_name hk0 hk, tokens_nil, List.append_nil, List.dropLast_concat]

/-- The parent of a path without a root directory has none. -/
theorem head?_parentPath {s : Str} (hlast : s.getLast? ≠ some Str.slash)
    (hroot : s.head? ≠ some Str.slash) : (posix.parentPath s).head? ≠ some Str.slash := by
  rcases eq_or_ne s [] with rfl | hne
  · exact hroot
  · obtain ⟨a, k, rfl, hk0, hk, ha⟩ := eq_append_name hne hlast
    exact fun h => hroot ((parentPath_append_name hk0 hk ha).2.1 h)

/-- The parent of a file in or below the root directory has a root directory. -/
theorem head?_parentPath_of_root {s : Str} (hlast : s.getLast? ≠ some Str.slash)
    (hroot : s.head? = some Str.slash) : (posix.parentPath s).head? = some Str.slash := by
  have hne : s ≠ [] := by
    rintro rfl
    cases hroot
  obtain ⟨a, k, rfl, hk0, hk, ha⟩ := eq_append_name hne hlast
  exact (parentPath_append_name hk0 hk ha).2.2 hroot

/-! ## make_relative -/

/-- `boost::filesystem::absolute`, with the current directory. -/
def absolute (cwd s : Str) : Str := if s.head? = some Str.slash then s else posix.append cwd s

/-- The loop of `make_relative` that finds the common base: what it leaves of either path. -/
def dropCommon : List Str → List Str → List Str × List Str
  | x :: xs, y :: ys => if x = y then dropCommon xs ys else (x :: xs, y :: ys)
  | xs, ys => (xs, ys)

/-- `make_relative` -/
def makeRelative (cwd aFrom aTo : Str) : Str :=
  let (itrFrom, itrTo) :=
    dropCommon (posix.components (absolute cwd aFrom)) (posix.components (absolute cwd aTo))
  let ret := itrFrom.foldl (fun ret dir =>
    if dir ≠ Str.ascii "." then posix.append ret (Str.ascii "..") else ret) []
  itrTo.foldl posix.append ret

theorem dropCommon_append (c xs ys : List Str) :
    dropCommon (c ++ xs) (c ++ ys) = dropCommon xs ys := by
  induction c with
  | nil => rfl
  | cons k c ih => simp [dropCommon, ih]

/-- What is left when the base is common up to a dot at its end. -/
theorem dropCommon_dot {dots : List Str} (hdots : dots = [] ∨ dots = [Str.ascii "."])
    (ys : List Str) : ∃ xs zs, dropCommon dots ys = (xs, zs) ∧ (∀ x ∈ xs, x = Str.ascii ".") ∧
      (ys = zs ∨ ys = Str.ascii "." :: zs) := by
  rcases hdots with rfl | rfl
  · exact ⟨[], ys, by cases ys <;> rfl, by simp, .inl rfl⟩
  · cases ys with
    | nil => exact ⟨_, _, rfl, by simp, .inl rfl⟩
    | cons y ys =>
      by_cases hy : Str.ascii "." = y
      · exact ⟨[], ys, by simp [dropCommon, hy], by simp, .inr (hy ▸ rfl)⟩
      · exact ⟨[Str.ascii "."], y :: ys, by simp [dropCommon, hy], by simp, .inl rfl⟩

theorem foldl_up_dots {xs : List Str} (hxs : ∀ x ∈ xs, x = Str.ascii ".") (ret : Str) :
    xs.foldl (fun ret dir =>
      if dir ≠ Str.ascii "." then posix.append ret (Str.ascii "..") else ret) ret = ret := by
  induction xs with
  | nil => rfl
  | cons x xs ih =>
    obtain ⟨hx, hxs⟩ := List.forall_mem_cons.1 hxs
    rw [List.foldl_cons, if_neg (not_not.2 hx), ih hxs]

theorem tokens_foldl_append {ks : List Str} (hks : ∀ k ∈ ks, k ≠ [] ∧ Str.slash ∉ k) (ret : Str) :
    tokens (ks.foldl posix.append ret) = tokens ret ++ ks := by
  induction ks generalizing ret with
  | nil => rw [List.foldl_nil, List.append_nil]
  | cons k ks ih =>
    obtain ⟨⟨hne, hk⟩, hks⟩ := List.forall_mem_cons.1 hks
    rw [List.foldl_cons, ih hks, tokens_append, tokens_name hne hk, List.append_assoc,
      List.singleton_append]

theorem head?_foldl_append {ks : List Str} (hks : ∀ k ∈ ks, k ≠ [] ∧ Str.slash ∉ k) {ret : Str}
    (hret : ret.head? ≠ some Str.slash) :
    (ks.foldl posix.append ret).head? ≠ some Str.slash := by
  induction ks generalizing ret with
  | nil => exact hret
  | cons k ks ih =>
    obtain ⟨⟨-, hk⟩, hks⟩ := List.forall_mem_cons.1 hks
    apply ih hks
    rcases eq_or_ne ret [] with rfl | hne
    · rw [nil_append]
      exact rootOf_name hk
    · rwa [head?_append hne]

theorem getLast?_foldl_append {ks : List Str} (hks : ∀ k ∈ ks, k ≠ [] ∧ Str.slash ∉ k) {ret : Str}
    (hret : ret.getLast? ≠ some Str.slash) :
    (ks.foldl posix.append ret).getLast? ≠ some Str.slash := by
  induction ks generalizing ret with
  | nil => exact hret
  | cons k ks ih =>
    obtain ⟨⟨hne, hk⟩, hks⟩ := List.forall_mem_cons.1 hks
    apply ih hks
    rw [getLast?_append ret hne]
    exact getLast?_name hk

end Jord.Rc.PathString

namespace Jord.Rc

open PathLib PathString

/-! ## File systems -/

/-- The component that a string of an iterator stands for. -/
def component (k : Str) : Component Str :=
  if k = [Str.slash] then .root
  else if k = Str.ascii "." then .here
  else if k = Str.ascii ".." then .up
  else .name k

/-- A name that a directory can hold. -/
structure FileName (k : Str) : Prop where
  ne_nil : k ≠ []
  slash : Str.slash ∉ k
  here : k ≠ Str.ascii "."
  up : k ≠ Str.ascii ".."

theorem FileName.component {k : Str} (hk : FileName k) : component k = .name k := by
  have hroot : k ≠ [Str.slash] := by
    rintro rfl
    exact hk.slash List.mem_cons_self
  rw [Rc.component, if_neg hroot, if_neg hk.here, if_neg hk.up]

theorem FileName.not_skipped {k : Str} (hk : FileName k) : ¬ RCBuilder.skipped k := by
  simp [RCBuilder.skipped, hk.ne_nil, hk.here, hk.up]

/-- A finite directory tree without symbolic links, in the order in which its directories are
enumerated, with a current directory. A leaf without bytes is a file of another kind. -/
structure FileTree where
  entries : Forest Str (Option (List UInt8))
  cwd : List Str
  proper : entries.Proper FileName
  cwd_directory : entries.entryAt cwd = some .directory

namespace FileTree

variable (T : FileTree)

/-- The path of the current directory. -/
def currentPath : Str := Str.slash :: Str.join T.cwd

/-- The place a path string leads to; the empty string leads nowhere. -/
def locate (s : Str) : Option (List Str) :=
  if s = [] then none
  else T.entries.entryAt.locate [] ((posix.components (absolute T.currentPath s)).map component)

/-- What a path string leads to. -/
def status (s : Str) : Option (PathStore.Entry (Option (List UInt8))) :=
  (T.locate s).bind T.entries.entryAt

/-- The contents of the regular file at a path. -/
def contents : FileSystem := fun s =>
  match T.status s with
  | some (.file bytes) => bytes
  | _ => none

/-- `boost::filesystem::is_regular_file` -/
def isRegularFile (s : Str) : Bool := (T.contents s).isSome

/-- `boost::filesystem::is_directory` -/
def isDirectory (s : Str) : Bool :=
  match T.status s with
  | some .directory => true
  | _ => false

/-- The names that a `directory_iterator` runs through. -/
def list (s : Str) : List Str := (((T.locate s).bind T.entries.subAt).map Forest.names).getD []

/-- The names on the way from the root to where a path starts. -/
def start (s : Str) : List Str := if s.head? = some Str.slash then [] else T.cwd

theorem tokens_currentPath : tokens T.currentPath = T.cwd := by
  rw [currentPath, tokens_slash_cons]
  apply tokens_join
  intro k hk
  have := T.proper.names_of_entryAt (p := T.cwd) (by simp [T.cwd_directory]) k hk
  exact ⟨this.ne_nil, this.slash⟩

theorem dotOf_currentPath : dotOf T.currentPath = [] := by
  have hproper : ∀ k ∈ T.cwd, FileName k :=
    T.proper.names_of_entryAt (by simp [T.cwd_directory])
  rcases T.cwd.eq_nil_or_concat' with hnil | ⟨ks, k, hks⟩
  · simp [dotOf, T.tokens_currentPath, hnil]
  · have hk : FileName k := hproper k (by simp [hks])
    have hlast : T.currentPath.getLast? = k.getLast? := by
      have hjoin : Str.join T.cwd ≠ [] := by
        intro hnil
        have := Str.getLast?_join_concat ks hk.ne_nil
        rw [← hks, hnil, List.getLast?_eq_some_getLast hk.ne_nil] at this
        cases this
      rw [currentPath, ← List.singleton_append, List.getLast?_append_of_ne_nil _ hjoin, hks,
        Str.getLast?_join_concat ks hk.ne_nil]
    simp [dotOf, hlast, getLast?_name hk.slash]

/-- The components of an absolute path. -/
theorem components_absolute (s : Str) : posix.components (absolute T.currentPath s) =
    [Str.slash] :: (T.start s ++ tokens s ++ dotOf (absolute T.currentPath s)) := by
  rw [components_eq]
  by_cases hs : s.head? = some Str.slash
  · simp [absolute, start, rootOf, hs]
  · have hhead : (posix.append T.currentPath s).head? = some Str.slash :=
      head?_append (List.cons_ne_nil _ _) s
    simp [absolute, start, rootOf, hs, hhead, tokens_append, T.tokens_currentPath]

theorem dotOf_absolute {s : Str} (hne : s ≠ []) (hlast : s.getLast? ≠ some Str.slash) :
    dotOf (absolute T.currentPath s) = [] := by
  have : (absolute T.currentPath s).getLast? ≠ some Str.slash := by
    unfold absolute
    split
    · exact hlast
    · rwa [getLast?_append _ hne]
  simp [dotOf, this]

theorem start_append {p q : Str} (h : p ≠ [] ∨ q.head? ≠ some Str.slash) :
    T.start (posix.append p q) = T.start p := by
  rcases eq_or_ne p [] with rfl | hp
  · simp [start, nil_append, h.resolve_left (not_not_intro rfl)]
  · simp [start, head?_append hp]

/-- Following a path string from the root. -/
theorem locate_eq {s : Str} (hne : s ≠ []) : T.locate s = T.entries.entryAt.locate []
    ((T.start s ++ tokens s ++ dotOf (absolute T.currentPath s)).map component) := by
  have hroot : T.entries.entryAt [] = some .directory := Forest.entryAt_nil _
  rw [locate, if_neg hne, components_absolute, List.map_cons, PathStore.locate]
  change ((T.entries.entryAt.step [] .root).bind _) = _
  rw [(PathStore.step_of_directory hroot).1]
  rfl

theorem ne_nil_of_locate {s : Str} {loc : List Str} (h : T.locate s = some loc) : s ≠ [] := by
  rintro rfl
  cases h

/-- The slash at the end of a path that leads somewhere can be left out. -/
theorem locate_tokens {s : Str} {loc : List Str} (h : T.locate s = some loc) :
    T.entries.entryAt.locate [] ((T.start s ++ tokens s).map component) = some loc := by
  rw [T.locate_eq (T.ne_nil_of_locate h), List.map_append] at h
  rcases dotOf_eq (absolute T.currentPath s) with hdot | hdot
  · rwa [hdot, List.map_nil, List.append_nil] at h
  · rw [hdot] at h
    exact (PathStore.locate_concat_here h).1

/-- A path to something else than a directory does not end with a slash. -/
theorem getLast?_of_locate {s : Str} {loc : List Str} (h : T.locate s = some loc)
    (hloc : T.entries.entryAt loc ≠ some .directory) : s.getLast? ≠ some Str.slash := by
  intro hlast
  have hne := T.ne_nil_of_locate h
  have htokens : tokens s ≠ [] := by
    intro hnil
    -- a path of slashes leads to the root
    have hhead : s.head? = some Str.slash := by
      by_contra hhead
      exact tokens_ne_nil hne hhead hnil
    have hroot := T.locate_tokens h
    rw [start, if_pos hhead, hnil] at hroot
    cases hroot
    exact hloc (Forest.entryAt_nil _)
  have hdot : dotOf (absolute T.currentPath s) = [Str.ascii "."] := by
    have hend : (absolute T.currentPath s).getLast? = some Str.slash := by
      unfold absolute
      split
      · exact hlast
      · rwa [getLast?_append _ hne]
    have htokens' : tokens (absolute T.currentPath s) ≠ [] := by
      unfold absolute
      split
      · exact htokens
      · rw [tokens_append]
        exact fun hnil => htokens (List.append_eq_nil_iff.1 hnil).2
    simp [dotOf, hend, htokens']
  rw [T.locate_eq hne, hdot, List.map_append] at h
  exact hloc (PathStore.locate_concat_here h).2

/-- **An entry of a directory** is found under its name behind the path of the directory. -/
theorem locate_entry {s : Str} {loc : List Str} (h : T.locate s = some loc)
    (hd : T.entries.entryAt loc = some .directory) {k : Str} (hk : FileName k)
    (hentry : T.entries.entryAt (loc ++ [k]) ≠ none) :
    T.locate (posix.append s k) = some (loc ++ [k]) := by
  have hlast : (posix.append s k).getLast? ≠ some Str.slash := by
    rw [getLast?_append s hk.ne_nil]
    exact getLast?_name hk.slash
  rw [T.locate_eq (append_ne_nil hk.ne_nil), T.dotOf_absolute (append_ne_nil hk.ne_nil) hlast,
    T.start_append (.inr (rootOf_name hk.slash)), tokens_append, tokens_name hk.ne_nil hk.slash,
    List.append_nil, ← List.append_assoc, List.map_append, PathStore.locate_append,
    T.locate_tokens h]
  change (T.entries.entryAt.step loc (component k)).bind some = _
  rw [hk.component, PathStore.step_name hd hentry]
  rfl

end FileTree

/-! ## The relative path of an entry -/

/-- The path `rel` goes through the names of `path` and the name `k`, but for a dot at the start. -/
structure Below (path k rel : Str) : Prop where
  tokens : tokens path ++ [k] = tokens rel ∨ tokens path ++ [k] = Str.ascii "." :: tokens rel
  root : rel.head? ≠ some Str.slash
  last : rel.getLast? ≠ some Str.slash

/-- A dot at the start is not the last component. -/
theorem exists_concat_of_dot {k : Str} (hk : FileName k) {xs zs : List Str}
    (h : xs ++ [k] = zs ∨ xs ++ [k] = Str.ascii "." :: zs) : ∃ ks, zs = ks ++ [k] := by
  rcases h with h | h
  · exact ⟨xs, h.symm⟩
  · cases xs with
    | nil => exact absurd (List.cons.inj h).1 hk.here
    | cons x xs => exact ⟨xs, (List.cons.inj h).2.symm⟩

namespace Below

variable {path k rel : Str}

theorem exists_concat (hb : Below path k rel) (hk : FileName k) :
    ∃ ks, PathString.tokens rel = ks ++ [k] :=
  exists_concat_of_dot hk hb.tokens

theorem ne_nil (hb : Below path k rel) (hk : FileName k) : rel ≠ [] := by
  rintro rfl
  obtain ⟨ks, hks⟩ := hb.exists_concat hk
  simp at hks

theorem names (hb : Below path k rel) (hk : FileName k) :
    RCBuilder.names (PathString.tokens rel) = RCBuilder.names (PathString.tokens path) ++ [k] := by
  have happend : RCBuilder.names (PathString.tokens path ++ [k]) =
      RCBuilder.names (PathString.tokens path) ++ [k] := by
    simp [RCBuilder.names, hk.not_skipped]
  rcases hb.tokens with h | h
  · rw [← h, happend]
  · rw [← happend, h, RCBuilder.names_cons_of_skipped (by decide)]

/-- The relative path leads where the entry is. -/
theorem locate (hb : Below path k rel) (hk : FileName k) {T : FileTree} {rp : Str} {loc : List Str}
    (hpath : rp ≠ [] ∨ path.head? ≠ some Str.slash)
    (h : T.locate (posix.append (posix.append rp path) k) = some loc) :
    T.locate (posix.append rp rel) = some loc := by
  have hrel := hb.ne_nil hk
  have hlast : (posix.append rp rel).getLast? ≠ some Str.slash := by
    rw [getLast?_append rp hrel]
    exact hb.last
  have h := T.locate_tokens h
  rw [T.start_append (.inr (rootOf_name hk.slash)), T.start_append hpath, tokens_append,
    tokens_append, tokens_name hk.ne_nil hk.slash, List.append_assoc, ← List.append_assoc,
    List.map_append,
    PathStore.locate_append] at h
  rw [T.locate_eq (append_ne_nil hrel), T.dotOf_absolute (append_ne_nil hrel) hlast,
    T.start_append (.inr hb.root), tokens_append, List.append_nil, ← List.append_assoc,
    List.map_append, PathStore.locate_append]
  obtain ⟨d, hd, h⟩ := Option.bind_eq_some_iff.1 h
  rw [hd, Option.bind_some]
  rcases hb.tokens with htokens | htokens
  · rwa [← htokens]
  · rw [htokens] at h
    exact PathStore.locate_here_cons h

end Below

/-- **What `make_relative` makes of the path of an entry.** -/
theorem makeRelative_below (T : FileTree) (rp : Str) {path k : Str}
    (hpath : rp ≠ [] ∨ path.head? ≠ some Str.slash) (hk : FileName k) :
    Below path k (makeRelative T.currentPath rp (posix.append (posix.append rp path) k)) := by
  set p := posix.append (posix.append rp path) k with hp
  have hto : posix.components (absolute T.currentPath p) =
      ([Str.slash] :: (T.start rp ++ tokens rp)) ++ (tokens path ++ [k]) := by
    have hlast : p.getLast? ≠ some Str.slash := by
      rw [hp, getLast?_append _ hk.ne_nil]
      exact getLast?_name hk.slash
    rw [T.components_absolute, T.dotOf_absolute (append_ne_nil hk.ne_nil) hlast, hp,
      T.start_append (.inr (rootOf_name hk.slash)), T.start_append hpath, tokens_append,
      tokens_append, tokens_name hk.ne_nil hk.slash]
    simp
  have hfrom : posix.components (absolute T.currentPath rp) =
      ([Str.slash] :: (T.start rp ++ tokens rp)) ++ dotOf (absolute T.currentPath rp) := by
    rw [T.components_absolute]
    rfl
  obtain ⟨xs, zs, hdrop, hxs, hzs⟩ := dropCommon_dot (dotOf_eq (absolute T.currentPath rp))
    (tokens path ++ [k])
  have hmake : makeRelative T.currentPath rp p = zs.foldl posix.append [] := by
    rw [makeRelative, hfrom, hto, dropCommon_append, hdrop]
    exact congrArg (zs.foldl posix.append) (foldl_up_dots hxs [])
  -- the components that are appended are names, the last of them `k`
  have hvalid : ∀ z ∈ zs, z ≠ [] ∧ Str.slash ∉ z := by
    intro z hz
    have hmem : z ∈ tokens path ++ [k] := by
      rcases hzs with h | h
      · rwa [h]
      · rw [h]
        exact List.mem_cons_of_mem _ hz
    rcases List.mem_append.1 hmem with hmem | hmem
    · exact mem_tokens hmem
    · rw [List.mem_singleton.1 hmem]
      exact ⟨hk.ne_nil, hk.slash⟩
  have htokens : tokens (zs.foldl posix.append []) = zs := by
    rw [tokens_foldl_append hvalid, tokens_nil, List.nil_append]
  obtain ⟨ks, rfl⟩ := exists_concat_of_dot hk hzs
  rw [hmake]
  refine ⟨by rwa [htokens], head?_foldl_append hvalid (by simp), ?_⟩
  rw [List.foldl_append, List.foldl_cons, List.foldl_nil, getLast?_append _ hk.ne_nil]
  exact getLast?_name hk.slash

example : makeRelative (Str.ascii "/w") (Str.ascii "res/") (Str.ascii "res/./x/y") =
    Str.ascii "x/y" := by
  decide

end Jord.Rc
