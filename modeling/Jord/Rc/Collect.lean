import Jord.Rc.AddEntry

/-!
# What is collected

`addEntry_collects_iff` is the exact condition under which `addEntry` collects the wanted files and
nothing else, each once and into its virtual directory. An entry path that begins with a slash is
where it fails: `addFile` takes the slash for a directory of its own if there is no base path, and
without a resource path the loop of `addEntry` goes from the current directory to such an entry, so
that the directories they share are missing from the virtual ones.
-/

namespace Jord.Rc.RCBuilder

open PathLib PathString

variable {T : FileTree} {rp : Str}

theorem exists_of_forall₂_left {α β : Type*} {R : α → β → Prop} {xs : List α} {ys : List β}
    (h : List.Forall₂ R xs ys) {x : α} (hx : x ∈ xs) : ∃ y ∈ ys, R x y := by
  obtain ⟨i, hi, rfl⟩ := List.getElem_of_mem hx
  exact ⟨ys.get ⟨i, h.length_eq ▸ hi⟩, List.getElem_mem _, h.get hi _⟩

theorem exists_of_forall₂_right {α β : Type*} {R : α → β → Prop} {xs : List α} {ys : List β}
    (h : List.Forall₂ R xs ys) {y : β} (hy : y ∈ ys) : ∃ x ∈ xs, R x y :=
  exists_of_forall₂_left h.flip hy

/-! ## What is collected -/

/-- The place is that of a regular file that `addEntry` is to collect: the entry, or a file below
it, at any depth or directly. -/
def Wanted (T : FileTree) (rp path : Str) (recursive : Bool) (loc : List Str) : Prop :=
  ∃ entry q, T.locate (posix.append rp path) = some entry ∧ loc = entry ++ q ∧
    (recursive = false → q.length ≤ 1) ∧ ∃ bytes, T.entries.entryAt loc = some (.file (some bytes))

/-- The call of `addFile` for the relative path `r` collects the file at a place: the resource path
joined with `r` leads there, and the virtual directory is the base path followed by the directory of
the file, relative to the resource path. -/
def Collects (T : FileTree) (basePath rp path r : Str) (loc : List Str) : Prop :=
  T.locate (posix.append rp r) = some loc ∧
    ∃ entry q, T.locate (posix.append rp path) = some entry ∧ loc = entry ++ q ∧
      names (walked posix basePath r) =
        names (baseComponents basePath) ++ names (tokens path ++ q).dropLast

/-- `addEntry` ends, and calls `addFile` once for every wanted file and for nothing else, until a
call throws. -/
def CollectsExactly (T : FileTree) (basePath rp path : Str) (recursive : Bool) : Prop :=
  ∃ (calls : List Str) (locs : List (List Str)) (bound : ℕ),
    (∀ fuel ≥ bound, entryCalls T rp recursive fuel path = some calls ∧
      ∀ b, addEntry T basePath rp recursive fuel path b =
        some (makeCalls T basePath rp calls b)) ∧
    locs.Nodup ∧ (∀ loc, loc ∈ locs ↔ Wanted T rp path recursive loc) ∧
    List.Forall₂ (Collects T basePath rp path) calls locs

variable {basePath path : Str} {recursive : Bool} {entry loc : List Str}

theorem wanted_iff (hentry : T.locate (posix.append rp path) = some entry) :
    Wanted T rp path recursive loc ↔ ∃ q, loc = entry ++ q ∧ (recursive = false → q.length ≤ 1) ∧
      ∃ bytes, T.entries.entryAt loc = some (.file (some bytes)) := by
  constructor
  · rintro ⟨entry', q, h, hq⟩
    obtain rfl := Option.some.inj (hentry.symm.trans h)
    exact ⟨q, hq⟩
  · rintro ⟨q, hq⟩
    exact ⟨entry, q, hentry, hq⟩

/-- Of an entry that is not a directory nothing is wanted but the entry itself. -/
theorem eq_of_wanted (hentry : T.locate (posix.append rp path) = some entry)
    (hdir : T.entries.entryAt entry ≠ some .directory) (h : Wanted T rp path recursive loc) :
    loc = entry := by
  obtain ⟨q, rfl, -, bytes, hbytes⟩ := (wanted_iff hentry).1 h
  by_contra hne
  have hq : q ≠ [] := by
    rintro rfl
    exact hne (List.append_nil _)
  exact hdir (T.entries.entryAt_isTree entry q hq (by simp [hbytes]))

/-- The wanted files of a directory are its leaves. -/
theorem wanted_directory {S : Forest Str (Option (List UInt8))}
    (hentry : T.locate (posix.append rp path) = some entry)
    (hS : T.entries.subAt entry = some S) (hproper : S.Proper FileName) :
    Wanted T rp path recursive loc ↔
      loc ∈ (S.leaves recursive Option.isSome).map (entry ++ ·) := by
  rw [wanted_iff hentry, List.mem_map]
  simp only [Forest.mem_leaves hproper]
  constructor
  · rintro ⟨q, rfl, hlen, bytes, hbytes⟩
    exact ⟨q, ⟨⟨some bytes, rfl, (Forest.entryAt_append hS q).symm.trans hbytes⟩, hlen⟩, rfl⟩
  · rintro ⟨q, ⟨⟨bytes, hsome, hq⟩, hlen⟩, rfl⟩
    obtain ⟨bytes, rfl⟩ := Option.isSome_iff_exists.1 hsome
    exact ⟨q, rfl, hlen, bytes, (Forest.entryAt_append hS q).trans hq⟩

theorem CallFor.collects {r : Str} {q : List Str}
    (hentry : T.locate (posix.append rp path) = some entry)
    (h : CallFor T rp (RCBuilder.names (tokens path)) entry r q) :
    Collects T basePath rp path r (entry ++ q) :=
  ⟨h.locate, entry, q, hentry, rfl, by
    rw [h.names_walked basePath, names_dropLast _ h.ne_nil h.proper]⟩

/-- An entry that is neither a regular file nor a directory. -/
theorem collectsExactly_nothing (hregular : T.isRegularFile (posix.append rp path) = false)
    (hdirectory : T.isDirectory (posix.append rp path) = false)
    (hwanted : ∀ loc, ¬ Wanted T rp path recursive loc) :
    CollectsExactly T basePath rp path recursive := by
  refine ⟨[], [], 1, fun fuel hfuel => ?_, List.nodup_nil, fun loc => ?_, .nil⟩
  · obtain ⟨fuel, rfl⟩ : ∃ n, fuel = n + 1 := ⟨fuel - 1, by omega⟩
    have hcalls : entryCalls T rp recursive (fuel + 1) path = some [] := by
      simp [entryCalls, hregular, hdirectory]
    exact ⟨hcalls, addEntry_of_entryCalls T basePath rp hcalls⟩
  · exact iff_of_false List.not_mem_nil (hwanted loc)

theorem entryCalls_file (hentry : T.locate (posix.append rp path) = some entry) {bytes : List UInt8}
    (hfile : T.entries.entryAt entry = some (.file (some bytes))) (fuel : ℕ) :
    entryCalls T rp recursive (fuel + 1) path = some [path] := by
  obtain ⟨-, hregular⟩ := FileTree.tests_file hentry hfile
  simp [entryCalls, hregular]

/-- The path of a file does not end with a slash. -/
theorem getLast?_of_file (hentry : T.locate (posix.append rp path) = some entry)
    {bytes : List UInt8} (hfile : T.entries.entryAt entry = some (.file (some bytes))) :
    path.getLast? ≠ some Str.slash := by
  rcases eq_or_ne path [] with rfl | hne
  · simp
  · rw [← getLast?_append rp hne]
    exact T.getLast?_of_locate hentry (by simp [hfile])

/-- An entry that is a regular file. -/
theorem collectsExactly_file_iff (hentry : T.locate (posix.append rp path) = some entry)
    {bytes : List UInt8} (hfile : T.entries.entryAt entry = some (.file (some bytes))) :
    CollectsExactly T basePath rp path recursive ↔
      (afterMarker basePath ≠ [] ∨ path.head? ≠ some Str.slash) := by
  have hdir : T.entries.entryAt entry ≠ some .directory := by simp [hfile]
  have hlast := getLast?_of_file hentry hfile
  have hwanted : ∀ loc, Wanted T rp path recursive loc ↔ loc = entry := by
    refine fun loc => ⟨eq_of_wanted hentry hdir, ?_⟩
    rintro rfl
    exact (wanted_iff hentry).2 ⟨[], (List.append_nil _).symm, fun _ => Nat.zero_le 1, bytes, hfile⟩
  constructor
  · rintro ⟨calls, locs, bound, hcalls, -, hlocs, hall⟩
    obtain ⟨hfirst, -⟩ := hcalls (bound + 1) (by omega)
    cases hfirst.symm.trans (entryCalls_file hentry hfile bound)
    cases hall with
    | @cons _ loc _ _ hcollects _ =>
      obtain ⟨-, entry', q, hentry', hloc, hdirectory⟩ := hcollects
      obtain rfl := Option.some.inj (hentry.symm.trans hentry')
      obtain rfl := (hwanted loc).1 ((hlocs loc).1 List.mem_cons_self)
      obtain rfl : q = [] := List.self_eq_append_right.1 hloc
      by_contra hfits
      obtain ⟨hbase, hroot⟩ := not_or.1 hfits
      rw [names_walked_root (not_not.1 hbase) (not_not.1 hroot) hlast, List.append_nil,
        baseComponents, not_not.1 hbase] at hdirectory
      have hlen := congrArg List.length hdirectory
      rw [show names (posix.components []) = [] by decide, List.length_cons,
        List.nil_append] at hlen
      omega
  · intro hfits
    refine ⟨[path], [entry], 1, fun fuel hfuel => ?_, List.nodup_singleton _,
      fun loc => List.mem_singleton.trans (hwanted loc).symm,
      .cons ⟨hentry, entry, [], hentry, (List.append_nil _).symm, ?_⟩ .nil⟩
    · obtain ⟨fuel, rfl⟩ : ∃ n, fuel = n + 1 := ⟨fuel - 1, by omega⟩
      have hcalls : entryCalls T rp recursive (fuel + 1) path = some [path] :=
        entryCalls_file hentry hfile fuel
      exact ⟨hcalls, addEntry_of_entryCalls T basePath rp hcalls⟩
    · rw [names_walked basePath hfits hlast, List.append_nil]

/-- A loop over all that a directory holds. -/
theorem collectsExactly_of_loop {S : Forest Str (Option (List UInt8))}
    (hentry : T.locate (posix.append rp path) = some entry)
    (hdir : T.entries.entryAt entry = some .directory) (hS : T.entries.subAt entry = some S)
    (hproper : S.Proper FileName) {calls : List Str}
    (hcalls : List.Forall₂ (CallFor T rp (names (tokens path)) entry) calls
      (S.leaves recursive Option.isSome))
    (hloop : ∀ fuel ≥ S.size, allCalls (roundCalls T rp (entryCalls T rp recursive fuel) recursive
      (posix.append rp path)) S.names = some calls) :
    CollectsExactly T basePath rp path recursive := by
  refine ⟨calls, (S.leaves recursive Option.isSome).map (entry ++ ·), S.size + 1,
    fun fuel hfuel => ?_, ?_, fun loc => (wanted_directory hentry hS hproper).symm, ?_⟩
  · obtain ⟨fuel, rfl⟩ : ∃ n, fuel = n + 1 := ⟨fuel - 1, by omega⟩
    have hall : entryCalls T rp recursive (fuel + 1) path = some calls := by
      rw [entryCalls_directory hentry hdir hS]
      exact hloop fuel (by omega)
    exact ⟨hall, addEntry_of_entryCalls T basePath rp hall⟩
  · exact (Forest.nodup_leaves hproper).map (List.append_right_injective entry)
  · rw [List.forall₂_map_right_iff]
    exact hcalls.imp fun r q h => h.collects hentry

/-- An entry that is a directory. -/
theorem collectsExactly_directory (hpath : rp ≠ [] ∨ path.head? ≠ some Str.slash)
    (hentry : T.locate (posix.append rp path) = some entry)
    (hdir : T.entries.entryAt entry = some .directory) :
    CollectsExactly T basePath rp path recursive := by
  obtain ⟨S, hS, hproper⟩ := Forest.subAt_of_directory T.proper hdir
  obtain ⟨calls, hcalls, hloop⟩ := addEntry_loop recursive hproper hpath hentry hdir
    fun k _ => ⟨Forest.entryAt_append hS [k], Forest.subAt_append hS [k]⟩
  exact collectsExactly_of_loop hentry hdir hS hproper hcalls hloop

/-! ## A directory by its path from the root -/

/-- The path of a file, as written, goes through the first directory on the way to the current
one. -/
def SharesTop (T : FileTree) (path : Str) (q : List Str) : Prop :=
  ∃ k, T.cwd.head? = some k ∧ (tokens path ++ q).head? = some k

theorem sharesTop_cons {k : Str} {q : List Str} :
    SharesTop T path (k :: q) ↔ SharesTop T path [k] := by
  have hhead : (tokens path ++ k :: q).head? = (tokens path ++ [k]).head? := by
    cases tokens path <;> rfl
  rw [SharesTop, SharesTop, hhead]

/-- What `make_relative` makes of an entry of the directory: steps up to `base`, which is on the way
to the current directory, and then the rest of the path. -/
structure Climbs (T : FileTree) (path k : Str) (loc : List Str) (rel : Str)
    (base rest : List Str) : Prop where
  tokens_to : base ++ rest = tokens path ++ [k]
  shares : base ≠ [] ↔ SharesTop T path [k]
  proper : ∀ k ∈ base, FileName k
  rest_ne_nil : T.entries.entryAt (loc ++ [k]) ≠ some .directory → rest ≠ []
  tokens_rel : ∃ n, tokens rel = List.replicate n (Str.ascii "..") ++ rest
  root : rel.head? ≠ some Str.slash
  last : rel.getLast? ≠ some Str.slash
  locate : rel ≠ [] → T.locate rel = some (loc ++ [k])

/-- The names on the way from the root are those of `base` and those of the relative path. -/
theorem Climbs.names {k rel : Str} {base rest : List Str} (h : Climbs T path k loc rel base rest)
    (hk : FileName k) : names (tokens path) ++ [k] = base ++ names (tokens rel) := by
  obtain ⟨n, hrel⟩ := h.tokens_rel
  have hups : RCBuilder.names (List.replicate n (Str.ascii "..")) = [] := by
    rw [RCBuilder.names, List.filter_eq_nil_iff]
    intro x hx
    rw [List.eq_of_mem_replicate hx]
    decide
  rw [← names_concat _ hk, ← h.tokens_to, names_append, names_of_proper h.proper, hrel,
    names_append, hups, List.nil_append]

theorem map_component {ks : List Str} (hks : ∀ k ∈ ks, FileName k) :
    ks.map component = ks.map .name :=
  List.map_congr_left fun k hk => (hks k hk).component

theorem climbs {k : Str} (hpath : path.head? = some Str.slash) (hk : FileName k)
    (hp : T.locate (posix.append path k) = some (loc ++ [k])) : ∃ base rest,
    Climbs T path k loc (makeRelative T.currentPath [] (posix.append path k)) base rest := by
  obtain ⟨base, itrFrom, rest, hs⟩ :=
    exists_split (show T.currentPath.head? = some Str.slash from rfl) [] (posix.append path k)
  have hpne : path ≠ [] := by
    rintro rfl
    cases hpath
  have hhead : (posix.append path k).head? = some Str.slash := (head?_append hpne k).trans hpath
  have hlast : (posix.append path k).getLast? ≠ some Str.slash := by
    rw [getLast?_append path hk.ne_nil]
    exact getLast?_name hk.slash
  have hto := hs.tokens_to
  rw [absolute, if_pos hhead, tokens_append, tokens_name hk.ne_nil hk.slash, dotOf,
    if_neg (by simp [hlast]), List.append_nil] at hto
  have hfrom : base ++ itrFrom = T.cwd := by
    have hself : absolute T.currentPath [] = T.currentPath := by
      simp [absolute, posix]
    rw [hs.tokens_from, hself, T.tokens_currentPath, T.dotOf_currentPath, List.append_nil]
  have hproper : ∀ k ∈ base ++ itrFrom, FileName k := by
    rw [hfrom]
    exact T.proper.names_of_entryAt (by simp [T.cwd_directory])
  have hcwd : T.entries.entryAt (base ++ itrFrom) = some .directory := hfrom ▸ T.cwd_directory
  have hbase : T.entries.entryAt base = some .directory := by
    rcases eq_or_ne itrFrom [] with rfl | hne
    · rwa [List.append_nil] at hcwd
    · exact T.entries.entryAt_isTree base itrFrom hne (by simp [hcwd])
  have hcount : itrFrom.countP (· ≠ Str.ascii ".") = itrFrom.length := by
    rw [List.countP_eq_length]
    intro x hx
    simpa using (hproper x (List.mem_append_right _ hx)).here
  have htokens := hs.tokens_rel
  rw [hcount] at htokens
  -- from the root to `base`, and then along the rest of the path
  have hway : T.entries.entryAt.locate [] (base.map component) = some base := by
    rw [map_component fun x hx => hproper x (List.mem_append_left _ hx)]
    exact PathStore.locate_names T.entries.entryAt_isTree (by simp [hbase])
  have hrest := T.locate_tokens hp
  rw [FileTree.start, if_pos hhead, tokens_append, tokens_name hk.ne_nil hk.slash, ← hto,
    List.nil_append, List.map_append, PathStore.locate_append, hway, Option.bind_some] at hrest
  refine ⟨base, rest, hto, ?_, fun x hx => hproper x (List.mem_append_left _ hx), ?_, ⟨_, htokens⟩,
    hs.head_rel, hs.last_rel, fun hne => ?_⟩
  · constructor
    · intro hbase
      obtain ⟨x, xs, rfl⟩ := List.exists_cons_of_ne_nil hbase
      exact ⟨x, by rw [← hfrom]; rfl, by rw [← hto]; rfl⟩
    · rintro ⟨x, hx, hx'⟩ rfl
      rw [← hfrom] at hx
      rw [← hto] at hx'
      exact hs.distinct x hx hx'
  · rintro hnotdir rfl
    obtain rfl := Option.some.inj hrest
    exact hnotdir hbase
  · -- from the root to the current directory, and up to `base`
    have hcwd' : T.entries.entryAt.locate [] ((base ++ itrFrom).map component) =
        some (base ++ itrFrom) := by
      rw [map_component hproper]
      exact PathStore.locate_names T.entries.entryAt_isTree (by simp [hcwd])
    have hups := PathStore.locate_ups T.entries.entryAt_isTree hcwd
    rw [T.locate_eq hne, T.dotOf_absolute hne hs.last_rel, FileTree.start, if_neg hs.head_rel,
      ← hfrom, htokens, List.append_nil, List.map_append, PathStore.locate_append, hcwd',
      Option.bind_some, List.map_append, List.map_replicate,
      show component (Str.ascii "..") = .up by decide, PathStore.locate_append, hups,
      Option.bind_some, hrest]

/-- A call that `addEntry` makes for the directory at `path`, which begins with a slash: too few
names if the path of the file, as written, shares its first directory with the current one. -/
def AbsoluteCall (T : FileTree) (path : Str) (loc : List Str) (r : Str) : Prop :=
  ∃ q, CallTo T [] loc r q ∧
    (SharesTop T path q → (names (tokens r)).length < (names (tokens path) ++ q).length)

/-- The calls for a file of the directory. -/
theorem climbs_file {k rel : Str} {base rest : List Str} (h : Climbs T path k loc rel base rest)
    (hk : FileName k) (hfile : T.entries.entryAt (loc ++ [k]) ≠ some .directory) :
    AbsoluteCall T path loc rel ∧
      (¬ SharesTop T path [k] → CallFor T [] (names (tokens path)) loc rel [k]) := by
  obtain ⟨n, hrel⟩ := h.tokens_rel
  have hne := h.rest_ne_nil hfile
  obtain ⟨ks, k', rfl⟩ := (List.eq_nil_or_concat' rest).resolve_left hne
  obtain rfl : k' = k := by
    have := congrArg List.getLast? h.tokens_to
    simpa [← List.append_assoc] using this
  have hrelne : rel ≠ [] := by
    rintro rfl
    simp at hrel
  have hcall : CallTo T [] loc rel [k'] := by
    refine ⟨by rw [nil_append]; exact h.locate hrelne, h.root, h.last,
      ⟨List.replicate n (Str.ascii "..") ++ ks, k', by rw [hrel, List.append_assoc], hk⟩,
      by simpa using hk, List.cons_ne_nil _ _⟩
  have hnames := h.names hk
  refine ⟨⟨[k'], hcall, fun hshares => ?_⟩, fun hshares => ⟨hcall, ?_⟩⟩
  · have := List.length_pos_iff.2 (h.shares.2 hshares)
    rw [hnames, List.length_append]
    omega
  · rw [hnames, not_not.1 (mt h.shares.1 hshares), List.nil_append]

/-- The calls for a directory of the directory. -/
theorem climbs_directory (recursive : Bool) {k rel : Str} {base rest : List Str}
    {sub : Forest Str (Option (List UInt8))} (h : Climbs T path k loc rel base rest)
    (hk : FileName k) (hdir : T.entries.entryAt (loc ++ [k]) = some .directory)
    (hsub : T.entries.subAt (loc ++ [k]) = some sub) (hproper : sub.Proper FileName) :
    ∃ calls, (∀ fuel > sub.size, entryCalls T [] recursive fuel rel = some calls) ∧
      (∀ r ∈ calls, AbsoluteCall T path loc r) ∧
      ((∀ q ∈ sub.leaves recursive Option.isSome, ¬ SharesTop T path (k :: q)) →
        List.Forall₂ (fun r q => CallFor T [] (names (tokens path)) loc r (k :: q)) calls
          (sub.leaves recursive Option.isSome)) := by
  have hnames := h.names hk
  -- if a file is to be collected, and none that shares, then `base` is empty
  have hbase (hshares : ∀ q ∈ sub.leaves recursive Option.isSome, ¬ SharesTop T path (k :: q)) :
      sub.leaves recursive Option.isSome = [] ∨ base = [] := by
    rw [or_iff_not_imp_left]
    intro hleaves
    obtain ⟨q, hq⟩ := List.exists_mem_of_ne_nil _ hleaves
    exact not_not.1 (mt h.shares.1 (mt sharesTop_cons.2 (hshares q hq)))
  rcases eq_or_ne rel [] with rfl | hne
  · -- the directory is the current one, and the path to it is empty: nothing is there
    refine ⟨[], fun fuel hfuel => ?_, nofun, fun hshares => ?_⟩
    · obtain ⟨fuel, rfl⟩ : ∃ n, fuel = n + 1 := ⟨fuel - 1, by omega⟩
      rfl
    · rcases hbase hshares with hleaves | rfl
      · rw [hleaves]
        exact .nil
      · simp [names] at hnames
  · have hloc : T.locate (posix.append [] rel) = some (loc ++ [k]) := by
      rw [nil_append]
      exact h.locate hne
    obtain ⟨calls, hcalls, hloop⟩ := addEntry_loop recursive hproper (.inr h.root) hloc hdir
      fun k' _ => ⟨Forest.entryAt_append hsub [k'], Forest.subAt_append hsub [k']⟩
    refine ⟨calls, fun fuel hfuel => ?_, fun r hr => ?_, fun hshares => ?_⟩
    · obtain ⟨fuel, rfl⟩ : ∃ n, fuel = n + 1 := ⟨fuel - 1, by omega⟩
      rw [entryCalls_directory hloc hdir hsub]
      exact hloop fuel (by omega)
    · obtain ⟨q, -, hcall⟩ := exists_of_forall₂_left hcalls hr
      refine ⟨k :: q, hcall.toCallTo.below hk, fun hshares => ?_⟩
      have hlen : base.length ≠ 0 := by
        simpa using h.shares.2 (sharesTop_cons.1 hshares)
      have hall : names (tokens path) ++ k :: q = base ++ (names (tokens rel) ++ q) := by
        rw [List.append_cons, hnames, List.append_assoc]
      rw [hcall.names, hall, @List.length_append _ base]
      omega
    · rcases hbase hshares with hleaves | rfl
      · rw [hleaves] at hcalls ⊢
        rw [List.forall₂_nil_right_iff.1 hcalls]
        exact .nil
      · rw [List.nil_append] at hnames
        rw [← hnames] at hcalls
        exact hcalls.imp fun r q hcall => hcall.below hk

/-- **The loop of `addEntry`** over what is left of a directory whose path begins with a slash. -/
theorem absolute_loop (recursive : Bool) {R : Forest Str (Option (List UInt8))}
    (hR : R.Proper FileName) (hpath : path.head? = some Str.slash)
    (hloc : T.locate path = some loc) (hdir : T.entries.entryAt loc = some .directory)
    (hview : ∀ k ∈ R.names, T.entries.entryAt (loc ++ [k]) = R.entryAt [k] ∧
      T.entries.subAt (loc ++ [k]) = R.subAt [k]) :
    ∃ calls, (∀ fuel ≥ R.size, allCalls
        (roundCalls T [] (entryCalls T [] recursive fuel) recursive path) R.names = some calls) ∧
      (∀ r ∈ calls, AbsoluteCall T path loc r) ∧
      ((∀ q ∈ R.leaves recursive Option.isSome, ¬ SharesTop T path q) →
        List.Forall₂ (CallFor T [] (names (tokens path)) loc) calls
          (R.leaves recursive Option.isSome)) := by
  induction R with
  | nil => exact ⟨[], fun _ _ => rfl, nofun, fun _ => .nil⟩
  | leaf k bytes rest ih =>
    obtain ⟨hk, hnot, hrest⟩ := hR
    obtain ⟨hentry, -⟩ := hview k List.mem_cons_self
    have hfile : T.entries.entryAt (loc ++ [k]) = some (.file bytes) := by
      simp [hentry, Forest.entryAt]
    have hp := T.locate_entry hloc hdir hk (by simp [hfile])
    obtain ⟨calls, hloop, habsolute, hcalls⟩ := ih hrest
      (view_rest hview hnot fun k' hne => by simp [Forest.entryAt, Forest.subAt, hne])
    obtain ⟨base, left, hclimbs⟩ := climbs hpath hk hp
    obtain ⟨hfirst, hcall⟩ := climbs_file hclimbs hk (by simp [hfile])
    refine ⟨_, fun fuel hfuel => allCalls_cons (roundCalls_file hp hfile)
      (hloop fuel (by rw [Forest.size] at hfuel; omega)), fun r hr => ?_, fun hshares => ?_⟩
    · rcases List.mem_append.1 hr with hr | hr
      · split at hr
        · obtain rfl := List.mem_singleton.1 hr
          exact hfirst
        · cases hr
      · exact habsolute r hr
    · rw [Forest.leaves] at hshares ⊢
      obtain ⟨hsharesk, hshares⟩ := List.forall_mem_append.1 hshares
      refine List.rel_append ?_ (hcalls hshares)
      split
      · next hsome =>
        exact .cons (hcall (hsharesk [k] (by simp [hsome]))) .nil
      · exact .nil
  | node k sub rest ihsub ih =>
    obtain ⟨hk, hnot, hsub, hrest⟩ := hR
    obtain ⟨hentry, hsubAt⟩ := hview k List.mem_cons_self
    have hdirectory : T.entries.entryAt (loc ++ [k]) = some .directory := by
      simp [hentry, Forest.entryAt, Forest.entryAt_nil]
    have hsubAt : T.entries.subAt (loc ++ [k]) = some sub := by
      simp [hsubAt, Forest.subAt, Forest.subAt_nil]
    have hp := T.locate_entry hloc hdir hk (by simp [hdirectory])
    obtain ⟨calls, hloop, habsolute, hcalls⟩ := ih hrest
      (view_rest hview hnot fun k' hne => by simp [Forest.entryAt, Forest.subAt, hne])
    obtain ⟨base, left, hclimbs⟩ := climbs hpath hk hp
    obtain ⟨subcalls, hentryCalls, hsubabsolute, hsubcalls⟩ :=
      climbs_directory recursive hclimbs hk hdirectory hsubAt hsub
    refine ⟨(if recursive then subcalls else []) ++ calls, fun fuel hfuel => ?_, fun r hr => ?_,
      fun hshares => ?_⟩
    · rw [Forest.size] at hfuel
      refine allCalls_cons ?_ (hloop fuel (by omega))
      rw [roundCalls_directory hp hdirectory]
      cases recursive with
      | false => rfl
      | true => exact hentryCalls fuel (by omega)
    · rcases List.mem_append.1 hr with hr | hr
      · split at hr
        · exact hsubabsolute r hr
        · cases hr
      · exact habsolute r hr
    · rw [Forest.leaves] at hshares ⊢
      obtain ⟨hsharesk, hshares⟩ := List.forall_mem_append.1 hshares
      refine List.rel_append ?_ (hcalls hshares)
      split
      · next hrec =>
        rw [if_pos hrec] at hsharesk
        rw [List.forall₂_map_right_iff]
        exact hsubcalls fun q hq => hsharesk (k :: q) (List.mem_map_of_mem hq)
      · exact .nil

/-! ## When exactly the wanted files are collected -/

/-- What an entry path that begins with a slash has to fulfil: if a file is there, the base path is
neither empty nor `:/`, and if a directory is there, there is a resource path, or none of the files
to be collected shares its first directory with the current one. -/
structure FitsRoot (T : FileTree) (basePath rp path : Str) (recursive : Bool) : Prop where
  file : T.isRegularFile (posix.append rp path) = true → afterMarker basePath ≠ []
  directory : T.isDirectory (posix.append rp path) = true → rp = [] → ∀ entry q,
    T.locate (posix.append rp path) = some entry → Wanted T rp path recursive (entry ++ q) →
      ¬ SharesTop T path q

/-- An entry that is a directory, at a path that begins with a slash. -/
theorem collectsExactly_absolute_iff (hpath : path.head? = some Str.slash)
    (hentry : T.locate (posix.append [] path) = some entry)
    (hdir : T.entries.entryAt entry = some .directory) :
    CollectsExactly T basePath [] path recursive ↔
      ∀ q, Wanted T [] path recursive (entry ++ q) → ¬ SharesTop T path q := by
  obtain ⟨S, hS, hproper⟩ := Forest.subAt_of_directory T.proper hdir
  obtain ⟨calls, hloop, habsolute, hcalls⟩ := absolute_loop recursive hproper hpath
    (by rwa [nil_append] at hentry) hdir
    fun k _ => ⟨Forest.entryAt_append hS [k], Forest.subAt_append hS [k]⟩
  rw [← nil_append path] at hloop
  constructor
  · rintro ⟨calls', locs, bound, hexact, -, hlocs, hall⟩ q hwanted hshares
    -- the calls are those of the loop
    obtain ⟨hexact, -⟩ := hexact (max bound S.size + 1) (by omega)
    rw [entryCalls_directory hentry hdir hS, hloop _ (le_max_right _ _)] at hexact
    obtain rfl := Option.some.inj hexact
    obtain ⟨r, hr, hlocate, entry', q', hentry', hq', hdirectory⟩ :=
      exists_of_forall₂_right hall ((hlocs _).2 hwanted)
    obtain rfl := Option.some.inj (hentry.symm.trans hentry')
    obtain rfl := List.append_cancel_left hq'
    obtain ⟨q', hcall, hshort⟩ := habsolute r hr
    obtain rfl := List.append_cancel_left (Option.some.inj (hcall.locate.symm.trans hlocate))
    -- the virtual directory of the call lacks the directories that are shared
    obtain ⟨ks, k, hks, hk⟩ := hcall.concat
    rw [names_walked basePath (.inr hcall.root) hcall.last, hks, List.dropLast_concat,
      names_dropLast _ hcall.ne_nil hcall.proper] at hdirectory
    have hlen := congrArg List.length (List.append_cancel_left hdirectory)
    have hshort := hshort hshares
    rw [hks, names_concat ks hk, List.length_append, List.length_singleton] at hshort
    rw [List.length_dropLast] at hlen
    omega
  · intro hshares
    refine collectsExactly_of_loop hentry hdir hS hproper (hcalls fun q hq => ?_) hloop
    exact hshares q ((wanted_directory hentry hS hproper).2 (List.mem_map_of_mem hq))

/-- Nothing is wanted where nothing is, and where what is there is neither a regular file nor a
directory. -/
theorem not_wanted (hregular : T.isRegularFile (posix.append rp path) = false)
    (hdirectory : T.isDirectory (posix.append rp path) = false) :
    ¬ Wanted T rp path recursive loc := by
  rintro ⟨entry, q, hentry, rfl, -, bytes, hbytes⟩
  have hdir : T.entries.entryAt entry ≠ some .directory := fun hdir => by
    simp [(FileTree.tests_directory hentry hdir).1] at hdirectory
  obtain rfl : q = [] := by
    by_contra hne
    exact hdir (T.entries.entryAt_isTree entry q hne (by simp [hbytes]))
  rw [List.append_nil] at hbytes
  simp [(FileTree.tests_file hentry hbytes).2] at hregular

/-- What `addEntry` finds at an entry path. -/
theorem entry_cases (T : FileTree) (s : Str) :
    (T.isRegularFile s = false ∧ T.isDirectory s = false) ∨ ∃ entry, T.locate s = some entry ∧
      ((∃ bytes, T.entries.entryAt entry = some (.file (some bytes))) ∨
        T.entries.entryAt entry = some .directory) := by
  cases hentry : T.locate s with
  | none => simp [FileTree.isRegularFile, FileTree.contents, FileTree.isDirectory, FileTree.status,
      hentry]
  | some entry =>
    cases hat : T.entries.entryAt entry with
    | none => simp [FileTree.isRegularFile, FileTree.contents, FileTree.isDirectory,
        FileTree.status_of_locate hentry, hat]
    | some e =>
      cases e with
      | directory => exact .inr ⟨entry, rfl, .inr hat⟩
      | file bytes =>
        cases bytes with
        | none =>
          obtain ⟨hnotdir, hnotregular⟩ := FileTree.tests_file hentry hat
          exact .inl ⟨hnotregular, hnotdir⟩
        | some bytes => exact .inr ⟨entry, rfl, .inl ⟨bytes, hat⟩⟩

/-- **`addEntry` ends**: the size of the tree bounds the depth of its recursion. -/
theorem exists_entryCalls (T : FileTree) (rp path : Str) (recursive : Bool) :
    ∃ calls, ∀ fuel > T.entries.size, entryCalls T rp recursive fuel path = some calls := by
  suffices h : ∃ calls, ∀ fuel ≥ T.entries.size,
      entryCalls T rp recursive (fuel + 1) path = some calls by
    obtain ⟨calls, hcalls⟩ := h
    refine ⟨calls, fun fuel hfuel => ?_⟩
    obtain ⟨fuel, rfl⟩ : ∃ n, fuel = n + 1 := ⟨fuel - 1, by omega⟩
    exact hcalls fuel (by omega)
  rcases entry_cases T (posix.append rp path) with ⟨hregular, hdirectory⟩ | ⟨entry, hentry, hkind⟩
  · exact ⟨[], fun fuel _ => by simp [entryCalls, hregular, hdirectory]⟩
  · rcases hkind with ⟨bytes, hfile⟩ | hdir
    · exact ⟨[path], fun fuel _ => entryCalls_file hentry hfile fuel⟩
    · obtain ⟨S, hS, hproper⟩ := Forest.subAt_of_directory T.proper hdir
      have hsize := Forest.size_le_of_subAt hS
      have hview : ∀ k ∈ S.names, T.entries.entryAt (entry ++ [k]) = S.entryAt [k] ∧
          T.entries.subAt (entry ++ [k]) = S.subAt [k] := fun k _ =>
        ⟨Forest.entryAt_append hS [k], Forest.subAt_append hS [k]⟩
      by_cases hpath : rp ≠ [] ∨ path.head? ≠ some Str.slash
      · obtain ⟨calls, -, hloop⟩ := addEntry_loop recursive hproper hpath hentry hdir hview
        refine ⟨calls, fun fuel hfuel => ?_⟩
        rw [entryCalls_directory hentry hdir hS]
        exact hloop fuel (by omega)
      · obtain ⟨hrp, hroot⟩ := not_or.1 hpath
        obtain rfl := not_not.1 hrp
        obtain ⟨calls, hloop, -⟩ := absolute_loop recursive hproper (not_not.1 hroot)
          (by rwa [nil_append] at hentry) hdir hview
        refine ⟨calls, fun fuel hfuel => ?_⟩
        rw [entryCalls_directory hentry hdir hS, nil_append]
        exact hloop fuel (by omega)

theorem isSome_addEntry (T : FileTree) (basePath rp path : Str) (recursive : Bool) (b : RCBuilder) :
    (addEntry T basePath rp recursive (T.entries.size + 1) path b).isSome := by
  obtain ⟨calls, hcalls⟩ := exists_entryCalls T rp path recursive
  rw [addEntry_of_entryCalls T basePath rp (hcalls _ (Nat.lt_succ_self _))]
  rfl

/-- **When `addEntry` collects exactly the wanted files.** -/
theorem addEntry_collects_iff (T : FileTree) (basePath rp path : Str) (recursive : Bool) :
    CollectsExactly T basePath rp path recursive ↔
      (path.head? = some Str.slash → FitsRoot T basePath rp path recursive) := by
  rcases entry_cases T (posix.append rp path) with ⟨hregular, hdirectory⟩ | ⟨entry, hentry, hkind⟩
  · refine iff_of_true (collectsExactly_nothing hregular hdirectory fun loc =>
      not_wanted hregular hdirectory) fun _ => ⟨fun h => ?_, fun h => ?_⟩
    · simp [hregular] at h
    · simp [hdirectory] at h
  · rcases hkind with ⟨bytes, hfile⟩ | hdir
    · obtain ⟨hnotdir, hregular⟩ := FileTree.tests_file hentry hfile
      rw [collectsExactly_file_iff hentry hfile]
      constructor
      · rintro hfits hroot
        exact ⟨fun _ => hfits.resolve_right (not_not_intro hroot), fun h => by simp [hnotdir] at h⟩
      · intro hfits
        rw [or_iff_not_imp_right]
        exact fun hroot => (hfits (not_not.1 hroot)).file hregular
    · obtain ⟨hisdir, hnotregular⟩ := FileTree.tests_directory hentry hdir
      by_cases hpath : rp ≠ [] ∨ path.head? ≠ some Str.slash
      · refine iff_of_true (collectsExactly_directory hpath hentry hdir) fun hroot =>
          ⟨fun h => by simp [hnotregular] at h, fun _ hrp => ?_⟩
        exact absurd hpath (not_or.2 ⟨not_not_intro hrp, not_not_intro hroot⟩)
      · obtain ⟨hrp, hroot⟩ := not_or.1 hpath
        obtain rfl := not_not.1 hrp
        rw [collectsExactly_absolute_iff (not_not.1 hroot) hentry hdir]
        constructor
        · intro hshares _
          refine ⟨fun h => by simp [hnotregular] at h, fun _ _ entry' q hentry' => ?_⟩
          obtain rfl := Option.some.inj (hentry.symm.trans hentry')
          exact hshares q
        · exact fun hfits q => (hfits (not_not.1 hroot)).directory hisdir rfl entry q hentry

/-- The tree with the file `res/a`. -/
def resTree : FileTree where
  entries := .node (Str.ascii "res") (.leaf (Str.ascii "a") (some []) .nil) .nil
  cwd := []
  proper := ⟨by constructor <;> decide, List.not_mem_nil,
    ⟨by constructor <;> decide, List.not_mem_nil, trivial⟩, trivial⟩
  cwd_directory := rfl

/-- The file `/a` of `res` gets into a directory `/`. -/
theorem addEntry_collects_counterexample :
    ¬ CollectsExactly resTree (Str.ascii ":/") (Str.ascii "res") (Str.ascii "/a") false := by
  have hentry : resTree.locate (posix.append (Str.ascii "res") (Str.ascii "/a")) =
      some [Str.ascii "res", Str.ascii "a"] := by decide
  rw [collectsExactly_file_iff hentry rfl]
  decide

end Jord.Rc.RCBuilder
