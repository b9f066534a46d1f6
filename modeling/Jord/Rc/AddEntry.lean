import Jord.Rc.MakeRelative

/-!
# Adding entries

`RCBuilder::addEntry` adds a file, or the files of a directory, at any depth if it is told so. For
every entry of a directory it goes back from the path of the entry to one that is relative to the
resource path, and adds that.

A run of `addEntry` on a file tree is a sequence of calls of `addFile` (`entryCalls`, `makeCalls`),
which ends early only if one of them throws (`addEntry_of_entryCalls`). For the entries of a
directory these are the calls for the files that are to be collected (`addEntry_loop`), unless the
entry path begins with a slash and there is no resource path.
-/

namespace Jord.Rc.RCBuilder

open PathLib PathString

variable (T : FileTree) (basePath rp : Str)

/-! ## addEntry -/

/-- A loop over names, up to the first round that throws. -/
def eachEntry (round : RCBuilder → Str → Option (RCBuilder × Option Exn)) :
    List Str → RCBuilder → Option (RCBuilder × Option Exn)
  | [], b => some (b, none)
  | name :: names, b =>
    match round b name with
    | some (b, none) => eachEntry round names b
    | r => r

/-- A round of the loop of `addEntry`, given `addEntry` itself. -/
def addEntryRound (addEntry : Str → RCBuilder → Option (RCBuilder × Option Exn)) (recursive : Bool)
    (entryPath : Str) (b : RCBuilder) (name : Str) : Option (RCBuilder × Option Exn) :=
  let p := posix.append entryPath name
  let relPath := makeRelative T.currentPath rp p
  if T.isDirectory p && recursive then addEntry relPath b
  else if T.isRegularFile p then some (addFile posix T.contents b basePath rp relPath)
  else some (b, none)

/-- `RCBuilder::addEntry`; the fuel bounds the depth of the recursion. -/
def addEntry (recursive : Bool) : ℕ → Str → RCBuilder → Option (RCBuilder × Option Exn)
  | 0, _, _ => none
  | fuel + 1, path, b =>
    let entryPath := posix.append rp path
    if T.isRegularFile entryPath then some (addFile posix T.contents b basePath rp path)
    else if T.isDirectory entryPath then
      eachEntry (addEntryRound T basePath rp (addEntry recursive fuel) recursive entryPath)
        (T.list entryPath) b
    else some (b, none)

/-- Calls of `addFile` for relative paths, up to the first that throws. -/
def makeCalls : List Str → RCBuilder → RCBuilder × Option Exn
  | [], b => (b, none)
  | path :: paths, b =>
    match addFile posix T.contents b basePath rp path with
    | (b, none) => makeCalls paths b
    | r => r

theorem makeCalls_append (calls calls' : List Str) (b : RCBuilder) :
    makeCalls T basePath rp (calls ++ calls') b =
      match makeCalls T basePath rp calls b with
      | (b, none) => makeCalls T basePath rp calls' b
      | r => r := by
  induction calls generalizing b with
  | nil => rfl
  | cons path calls ih =>
    rw [List.cons_append, makeCalls, makeCalls]
    rcases addFile posix T.contents b basePath rp path with ⟨b₁, _ | e⟩
    · exact ih b₁
    · rfl

/-- The calls of a loop over names, those of one round after those of the other. -/
def allCalls (round : Str → Option (List Str)) : List Str → Option (List Str)
  | [] => some []
  | name :: names => do return (← round name) ++ (← allCalls round names)

/-- The calls of `addFile` in a round of the loop of `addEntry`, given those of `addEntry`. -/
def roundCalls (entryCalls : Str → Option (List Str)) (recursive : Bool) (entryPath name : Str) :
    Option (List Str) :=
  let p := posix.append entryPath name
  let relPath := makeRelative T.currentPath rp p
  if T.isDirectory p && recursive then entryCalls relPath
  else if T.isRegularFile p then some [relPath]
  else some []

/-- The calls of `addFile` that `addEntry` makes if they all return. -/
def entryCalls (recursive : Bool) : ℕ → Str → Option (List Str)
  | 0, _ => none
  | fuel + 1, path =>
    let entryPath := posix.append rp path
    if T.isRegularFile entryPath then some [path]
    else if T.isDirectory entryPath then
      allCalls (roundCalls T rp (entryCalls recursive fuel) recursive entryPath) (T.list entryPath)
    else some []

theorem makeCalls_singleton (path : Str) (b : RCBuilder) :
    makeCalls T basePath rp [path] b = addFile posix T.contents b basePath rp path := by
  rw [makeCalls]
  rcases addFile posix T.contents b basePath rp path with ⟨b₁, _ | e⟩ <;> rfl

/-- A loop whose rounds make calls. -/
theorem eachEntry_of_allCalls {round : RCBuilder → Str → Option (RCBuilder × Option Exn)}
    {calls : Str → Option (List Str)}
    (hround : ∀ name cs, calls name = some cs →
      ∀ b, round b name = some (makeCalls T basePath rp cs b))
    {names cs : List Str} (h : allCalls calls names = some cs) (b : RCBuilder) :
    eachEntry round names b = some (makeCalls T basePath rp cs b) := by
  induction names generalizing cs b with
  | nil =>
    cases h
    rfl
  | cons name names ih =>
    obtain ⟨first, hfirst, h⟩ := Option.bind_eq_some_iff.1 h
    obtain ⟨rest, hrest, h⟩ := Option.bind_eq_some_iff.1 h
    cases h
    rw [eachEntry, hround name first hfirst b, makeCalls_append]
    rcases makeCalls T basePath rp first b with ⟨b₁, _ | e⟩
    · exact ih hrest b₁
    · rfl

/-- **`addEntry` makes its calls**, up to the first that throws. -/
theorem addEntry_of_entryCalls {recursive : Bool} {fuel : ℕ} {path : Str} {calls : List Str}
    (h : entryCalls T rp recursive fuel path = some calls) (b : RCBuilder) :
    addEntry T basePath rp recursive fuel path b = some (makeCalls T basePath rp calls b) := by
  induction fuel generalizing path calls b with
  | zero => cases h
  | succ fuel ih =>
    rw [entryCalls] at h
    rw [addEntry]
    split at h
    · next hregular =>
      cases h
      rw [if_pos hregular, makeCalls_singleton]
    · next hregular =>
      rw [if_neg hregular]
      split at h
      · next hdirectory =>
        rw [if_pos hdirectory]
        refine eachEntry_of_allCalls T basePath rp (fun name cs hcs b => ?_) h b
        rw [roundCalls] at hcs
        rw [addEntryRound]
        split at hcs
        · next hdir =>
          rw [if_pos hdir]
          exact ih hcs b
        · next hdir =>
          rw [if_neg hdir]
          split at hcs
          · next hfile =>
            cases hcs
            rw [if_pos hfile, makeCalls_singleton]
          · next hfile =>
            cases hcs
            rw [if_neg hfile]
            rfl
      · next hdirectory =>
        cases h
        rw [if_neg hdirectory]
        rfl

theorem allCalls_cons {round : Str → Option (List Str)} {name : Str} {names cs cs' : List Str}
    (hround : round name = some cs) (hloop : allCalls round names = some cs') :
    allCalls round (name :: names) = some (cs ++ cs') := by
  rw [allCalls, hround, hloop]
  rfl

end Jord.Rc.RCBuilder

namespace Jord.Rc.FileTree

variable {T : FileTree} {s : Str} {loc : List Str}

theorem status_of_locate (h : T.locate s = some loc) : T.status s = T.entries.entryAt loc := by
  rw [status, h, Option.bind_some]

/-- What the tests of `addEntry` say of a directory. -/
theorem tests_directory (h : T.locate s = some loc) (hd : T.entries.entryAt loc = some .directory) :
    T.isDirectory s = true ∧ T.isRegularFile s = false := by
  simp [isDirectory, isRegularFile, contents, status_of_locate h, hd]

/-- What the tests of `addEntry` say of a file. -/
theorem tests_file (h : T.locate s = some loc) {bytes : Option (List UInt8)}
    (hf : T.entries.entryAt loc = some (.file bytes)) :
    T.isDirectory s = false ∧ T.isRegularFile s = bytes.isSome := by
  simp [isDirectory, isRegularFile, contents, status_of_locate h, hf]

theorem list_of_locate (h : T.locate s = some loc) {S : Forest Str (Option (List UInt8))}
    (hS : T.entries.subAt loc = some S) : T.list s = S.names := by
  simp [list, h, hS]

end Jord.Rc.FileTree

namespace Jord.Rc.RCBuilder

open PathLib PathString

variable (T : FileTree) (basePath rp : Str)

/-! ## The calls -/

/-- The call of `addFile` for the relative path `r` is for the file at `q` below the directory at
`loc`. -/
structure CallTo (loc : List Str) (r : Str) (q : List Str) : Prop where
  locate : T.locate (posix.append rp r) = some (loc ++ q)
  root : r.head? ≠ some Str.slash
  last : r.getLast? ≠ some Str.slash
  concat : ∃ ks k, tokens r = ks ++ [k] ∧ FileName k
  proper : ∀ k ∈ q, FileName k
  ne_nil : q ≠ []

/-- The relative path goes through the names `ns` of the directory, too. -/
structure CallFor (ns loc : List Str) (r : Str) (q : List Str) : Prop extends
    CallTo T rp loc r q where
  names : names (tokens r) = ns ++ q

variable {T rp}

/-- The call for an entry of the directory. -/
theorem callFor_entry {path : Str} {loc : List Str}
    (hpath : rp ≠ [] ∨ path.head? ≠ some Str.slash) {k : Str} (hk : FileName k)
    (h : T.locate (posix.append (posix.append rp path) k) = some (loc ++ [k])) :
    CallFor T rp (names (tokens path)) loc
      (makeRelative T.currentPath rp (posix.append (posix.append rp path) k)) [k] := by
  have hb := makeRelative_below T rp hpath hk
  obtain ⟨ks, hks⟩ := hb.exists_concat hk
  exact ⟨⟨hb.locate hk hpath h, hb.root, hb.last, ⟨ks, k, hks, hk⟩, by simpa using hk,
    List.cons_ne_nil _ _⟩, hb.names hk⟩

/-- The call for a file below an entry of the directory. -/
theorem CallTo.below {loc : List Str} {k r : Str} {q : List Str}
    (h : CallTo T rp (loc ++ [k]) r q) (hk : FileName k) : CallTo T rp loc r (k :: q) :=
  ⟨by simpa using h.locate, h.root, h.last, h.concat, List.forall_mem_cons.2 ⟨hk, h.proper⟩,
    List.cons_ne_nil _ _⟩

theorem CallFor.below {ns loc : List Str} {k r : Str} {q : List Str}
    (h : CallFor T rp (ns ++ [k]) (loc ++ [k]) r q) (hk : FileName k) :
    CallFor T rp ns loc r (k :: q) :=
  ⟨h.toCallTo.below hk, by simp [h.names]⟩

/-- What is left of a listing behind its first entry. -/
theorem view_rest {S R rest : Forest Str (Option (List UInt8))} {loc : List Str} {k : Str}
    (hview : ∀ k' ∈ k :: rest.names, S.entryAt (loc ++ [k']) = R.entryAt [k'] ∧
      S.subAt (loc ++ [k']) = R.subAt [k']) (hnot : k ∉ rest.names)
    (hrest : ∀ k' ≠ k, R.entryAt [k'] = rest.entryAt [k'] ∧ R.subAt [k'] = rest.subAt [k']) :
    ∀ k' ∈ rest.names, S.entryAt (loc ++ [k']) = rest.entryAt [k'] ∧
      S.subAt (loc ++ [k']) = rest.subAt [k'] := by
  intro k' hk'
  obtain ⟨hentry, hsub⟩ := hrest k' fun h => hnot (h ▸ hk')
  rw [← hentry, ← hsub]
  exact hview k' (List.mem_cons_of_mem _ hk')

/-- The round of the loop for a file. -/
theorem roundCalls_file {calls : Str → Option (List Str)} {recursive : Bool} {entryPath k : Str}
    {loc : List Str} {bytes : Option (List UInt8)}
    (hp : T.locate (posix.append entryPath k) = some loc)
    (hfile : T.entries.entryAt loc = some (.file bytes)) :
    roundCalls T rp calls recursive entryPath k = some (if bytes.isSome then
      [makeRelative T.currentPath rp (posix.append entryPath k)] else []) := by
  obtain ⟨hnotdir, hregular⟩ := FileTree.tests_file hp hfile
  simp only [roundCalls, hnotdir, hregular, Bool.false_and, Bool.false_eq_true, if_false]
  split <;> rfl

/-- The round of the loop for a directory. -/
theorem roundCalls_directory {calls : Str → Option (List Str)} {recursive : Bool}
    {entryPath k : Str} {loc : List Str} (hp : T.locate (posix.append entryPath k) = some loc)
    (hdir : T.entries.entryAt loc = some .directory) :
    roundCalls T rp calls recursive entryPath k = if recursive then
      calls (makeRelative T.currentPath rp (posix.append entryPath k)) else some [] := by
  obtain ⟨hisdir, hnotregular⟩ := FileTree.tests_directory hp hdir
  simp [roundCalls, hisdir, hnotregular]

/-- The calls for a directory are those of the loop over what it holds. -/
theorem entryCalls_directory {path : Str} {recursive : Bool} {fuel : ℕ} {loc : List Str}
    {S : Forest Str (Option (List UInt8))} (hloc : T.locate (posix.append rp path) = some loc)
    (hdir : T.entries.entryAt loc = some .directory) (hS : T.entries.subAt loc = some S) :
    entryCalls T rp recursive (fuel + 1) path = allCalls (roundCalls T rp
      (entryCalls T rp recursive fuel) recursive (posix.append rp path)) S.names := by
  obtain ⟨hisdir, hnotregular⟩ := FileTree.tests_directory hloc hdir
  simp only [entryCalls, hisdir, hnotregular, Bool.false_eq_true, if_false, if_true,
    FileTree.list_of_locate hloc hS]

/-- **The loop of `addEntry`** over the entries of a directory, or over what is left of them. -/
theorem addEntry_loop (recursive : Bool) {R : Forest Str (Option (List UInt8))}
    (hR : R.Proper FileName) {path : Str} {loc : List Str}
    (hpath : rp ≠ [] ∨ path.head? ≠ some Str.slash)
    (hloc : T.locate (posix.append rp path) = some loc)
    (hdir : T.entries.entryAt loc = some .directory)
    (hview : ∀ k ∈ R.names, T.entries.entryAt (loc ++ [k]) = R.entryAt [k] ∧
      T.entries.subAt (loc ++ [k]) = R.subAt [k]) :
    ∃ calls, List.Forall₂ (CallFor T rp (names (tokens path)) loc) calls
        (R.leaves recursive Option.isSome) ∧
      ∀ fuel ≥ R.size, allCalls (roundCalls T rp (entryCalls T rp recursive fuel) recursive
        (posix.append rp path)) R.names = some calls := by
  induction R generalizing path loc with
  | nil => exact ⟨[], .nil, fun _ _ => rfl⟩
  | leaf k bytes rest ih =>
    obtain ⟨hk, hnot, hrest⟩ := hR
    obtain ⟨hentry, -⟩ := hview k List.mem_cons_self
    have hfile : T.entries.entryAt (loc ++ [k]) = some (.file bytes) := by
      simp [hentry, Forest.entryAt]
    have hp := T.locate_entry hloc hdir hk (by simp [hfile])
    obtain ⟨calls, hcalls, hloop⟩ := ih hrest hpath hloc hdir
      (view_rest hview hnot fun k' hne => by simp [Forest.entryAt, Forest.subAt, hne])
    refine ⟨_, ?_, fun fuel hfuel =>
      allCalls_cons (roundCalls_file hp hfile) (hloop fuel (by rw [Forest.size] at hfuel; omega))⟩
    rw [Forest.leaves]
    refine List.rel_append ?_ hcalls
    split
    · exact .cons (callFor_entry hpath hk hp) .nil
    · exact .nil
  | node k sub rest ihsub ih =>
    obtain ⟨hk, hnot, hsub, hrest⟩ := hR
    obtain ⟨hentry, hsubAt⟩ := hview k List.mem_cons_self
    have hdirectory : T.entries.entryAt (loc ++ [k]) = some .directory := by
      simp [hentry, Forest.entryAt, Forest.entryAt_nil]
    have hsubAt : T.entries.subAt (loc ++ [k]) = some sub := by
      simp [hsubAt, Forest.subAt, Forest.subAt_nil]
    have hp := T.locate_entry hloc hdir hk (by simp [hdirectory])
    obtain ⟨calls, hcalls, hloop⟩ := ih hrest hpath hloc hdir
      (view_rest hview hnot fun k' hne => by simp [Forest.entryAt, Forest.subAt, hne])
    -- the directory is entered under the relative path
    have hcall := callFor_entry (T := T) hpath hk hp
    obtain ⟨subcalls, hsubcalls, hsubloop⟩ := ihsub hsub (.inr hcall.root) hcall.locate hdirectory
      fun k' _ => ⟨Forest.entryAt_append hsubAt [k'], Forest.subAt_append hsubAt [k']⟩
    rw [hcall.names] at hsubcalls
    refine ⟨(if recursive then subcalls else []) ++ calls, ?_, fun fuel hfuel => ?_⟩
    · rw [Forest.leaves]
      refine List.rel_append ?_ hcalls
      split
      · exact List.forall₂_map_right_iff.2 (hsubcalls.imp fun _ _ h => h.below hk)
      · exact .nil
    · rw [Forest.size] at hfuel
      refine allCalls_cons ?_ (hloop fuel (by omega))
      rw [roundCalls_directory hp hdirectory]
      cases recursive with
      | false => rfl
      | true =>
        obtain ⟨fuel, rfl⟩ : ∃ n, fuel = n + 1 := ⟨fuel - 1, by omega⟩
        rw [if_pos rfl, if_pos rfl, entryCalls_directory hcall.locate hdirectory hsubAt]
        exact hsubloop fuel (by omega)

/-! ## Virtual directories -/

/-- A base path, a leading `:/` removed. -/
def afterMarker (basePath : Str) : Str :=
  if basePath.take 2 = Str.ascii ":/" then basePath.drop 2 else basePath

/-- The components of a base path, a leading `:/` removed. -/
def baseComponents (basePath : Str) : List Str := posix.components (afterMarker basePath)

theorem names_append (xs ys : List Str) : names (xs ++ ys) = names xs ++ names ys :=
  List.filter_append ..

theorem names_components (s : Str) :
    names (posix.components s) = names (rootOf s) ++ names (tokens s) := by
  rw [components_eq, names_append, names_append]
  rcases dotOf_eq s with hdot | hdot
  · rw [hdot]
    exact List.append_nil _
  · rw [hdot, show names [Str.ascii "."] = [] by decide, List.append_nil]

theorem names_concat (xs : List Str) {k : Str} (hk : FileName k) :
    names (xs ++ [k]) = names xs ++ [k] := by
  simp [names, hk.not_skipped]

theorem names_of_proper {q : List Str} (hq : ∀ k ∈ q, FileName k) : names q = q := by
  rw [names, List.filter_eq_self]
  intro k hk
  simpa using (hq k hk).not_skipped

/-- The directories that `addFile` walks are those of the base path and those above the file. -/
theorem names_walked (basePath : Str) {r : Str}
    (hroot : afterMarker basePath ≠ [] ∨ r.head? ≠ some Str.slash)
    (hlast : r.getLast? ≠ some Str.slash) : names (walked posix basePath r) =
      names (baseComponents basePath) ++ names (tokens r).dropLast := by
  have hrootOf : rootOf (posix.append (afterMarker basePath) (posix.parentPath r)) =
      rootOf (afterMarker basePath) := by
    rcases eq_or_ne (afterMarker basePath) [] with hbase | hbase
    · rw [hbase, nil_append]
      simp [rootOf, head?_parentPath hlast (hroot.resolve_left (not_not_intro hbase))]
    · simp [rootOf, head?_append hbase]
  have hwalked : walked posix basePath r =
      posix.components (posix.append (afterMarker basePath) (posix.parentPath r)) := rfl
  rw [hwalked, baseComponents, names_components, names_components, hrootOf, tokens_append,
    tokens_parentPath hlast, names_append, List.append_assoc]

/-- Without a base path, the slash at the start of a path is one more directory. -/
theorem names_walked_root {basePath r : Str} (hbase : afterMarker basePath = [])
    (hroot : r.head? = some Str.slash) (hlast : r.getLast? ≠ some Str.slash) :
    names (walked posix basePath r) = [Str.slash] :: names (tokens r).dropLast := by
  have hwalked : walked posix basePath r =
      posix.components (posix.append (afterMarker basePath) (posix.parentPath r)) := rfl
  have hrootOf : rootOf (posix.parentPath r) = [[Str.slash]] :=
    if_pos (head?_parentPath_of_root hlast hroot)
  rw [hwalked, hbase, nil_append, names_components, hrootOf, tokens_parentPath hlast,
    show names [[Str.slash]] = [[Str.slash]] by decide]
  rfl

/-- The virtual directory of the call for a file: the base path, followed by the directory of the
file relative to the resource path. -/
theorem CallFor.names_walked {ns loc : List Str} {r : Str} {q : List Str}
    (h : CallFor T rp ns loc r q) (basePath : Str) :
    RCBuilder.names (walked posix basePath r) =
      RCBuilder.names (baseComponents basePath) ++ (ns ++ q).dropLast := by
  obtain ⟨ks, k, hks, hk⟩ := h.concat
  rw [RCBuilder.names_walked basePath (.inr h.root) h.last, ← h.names, hks, List.dropLast_concat,
    names_concat ks hk, List.dropLast_concat]

theorem names_dropLast (xs : List Str) {q : List Str} (hne : q ≠ []) (hq : ∀ k ∈ q, FileName k) :
    names (xs ++ q).dropLast = (names xs ++ q).dropLast := by
  obtain ⟨q, k, rfl⟩ := (List.eq_nil_or_concat' q).resolve_left hne
  rw [← List.append_assoc, List.dropLast_concat, ← List.append_assoc, List.dropLast_concat,
    names_append, names_of_proper fun k hk => hq k (List.mem_append_left _ hk)]

end Jord.Rc.RCBuilder
