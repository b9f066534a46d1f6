import Mathlib.Algebra.Group.Nat.Defs
import Jord.Rc.Decode

/-!
# Collecting files

`RCBuilder::addFile` walks the components of the virtual directory of a file, making directories as
it goes, and links a `File` node for it; it also records the file in the list of entries from which
the data array is written later.

* `addFile_ok` and `addFile_treeError` say what a call does: a call that returns puts one file into
  the store of the tree (`PathStore.put`), one that throws `RC tree error` changes nothing.
* `addFiles` is a sequence of calls, and `addFiles_induct` its induction principle.

The operations of `boost::filesystem::path` are parameters (`PathLib`), and so is the file system.
-/

namespace Jord.Rc

/-- The operations of `boost::filesystem::path` on path strings: `operator/=`, `parent_path`,
`filename`, and the components its iterators run through. -/
structure PathLib where
  append : Str → Str → Str
  parentPath : Str → Str
  filename : Str → Str
  components : Str → List Str

/-- Of the components of a path and of file names, those with a slash start with it: they are root
directories and root names. -/
structure PathLib.SlashFirst (lib : PathLib) : Prop where
  components : ∀ p, ∀ k ∈ lib.components p, Str.slash ∈ k → k.head? = some Str.slash
  filename : ∀ p, Str.slash ∈ lib.filename p → (lib.filename p).head? = some Str.slash

/-- The paths of a POSIX system, those of the form `//name` left out: separators are slashes, and a
path that starts with one has the component `/`. -/
def PathLib.posix : PathLib where
  append p q :=
    if q = [] then p
    else if p = [] || p.getLast? = some Str.slash || q.head? = some Str.slash then p ++ q
    else p ++ [Str.slash] ++ q
  parentPath p :=
    let dir := (p.reverse.dropWhile (· ≠ Str.slash)).dropWhile (· = Str.slash)
    if dir = [] && p.head? = some Str.slash && p ≠ [Str.slash] then [Str.slash] else dir.reverse
  filename p :=
    match (Str.split p).getLastD [] with
    | [] => if p = [] then [] else if p.all (· = Str.slash) then [Str.slash] else Str.ascii "."
    | name => name
  components p :=
    let names := (Str.split p).filter (· ≠ [])
    (if p.head? = some Str.slash then [[Str.slash]] else []) ++ names ++
      if names ≠ [] && p.getLast? = some Str.slash then [Str.ascii "."] else []

theorem PathLib.posix_slashFirst : PathLib.posix.SlashFirst := by
  constructor
  · intro p k hk hslash
    simp only [posix, List.append_assoc, List.mem_append] at hk
    rcases hk with hk | hk | hk
    · split at hk <;> simp_all
    · exact absurd hslash (Str.slash_notMem_of_mem_split (List.mem_of_mem_filter hk))
    · split at hk
      · obtain rfl := List.mem_singleton.1 hk
        exact absurd hslash (by decide)
      · cases hk
  · intro p hslash
    have hlast : (Str.split p).getLastD [] ∈ Str.split p := by
      rw [List.getLastD_eq_getLast?, List.getLast?_eq_some_getLast (Str.split_ne_nil p)]
      exact List.getLast_mem _
    simp only [posix] at hslash ⊢
    cases hname : (Str.split p).getLastD [] with
    | nil =>
      simp only [hname] at hslash ⊢
      split_ifs at hslash ⊢
      · cases hslash
      · rfl
      · exact absurd hslash (by decide)
    | cons x name =>
      simp only [hname] at hslash
      exact absurd hslash (Str.slash_notMem_of_mem_split (hname ▸ hlast))

/-- The contents of the regular files, by path; on every other path `file_size` throws and opening
fails. -/
abbrev FileSystem := Str → Option (List UInt8)

/-- The value of an unsigned integer after conversion to `size_t`. -/
def sizeT (n : ℕ) : ℕ := n % 2 ^ 64

/-- `RCBuilder::file_entry_t` -/
structure FileEntry where
  path : Str
  size : ℕ
  offset : ℕ
  deriving DecidableEq

/-- `rc::RCBuilder` -/
structure RCBuilder where
  heap : Heap
  root : Root
  entriesList : List FileEntry
  moduleName : Str

namespace RCBuilder

open Heap

/-- The table of contents the constructor of `RCBuilder` hands to `Root`. -/
def emptyToc : List TOCItem := [⟨.directory, Str.ascii ":/", 0, 0⟩]

/-- The builder after its constructor: an empty root directory, owned by the `Root` object 0. -/
def initial : RCBuilder := ⟨Root.withRoot [] 0, ⟨[], 0⟩, [], []⟩

/-- The constructor of `Root` builds the tree of `initial`. -/
theorem construct_emptyToc (fuel : ℕ) :
    Root.construct fuel [] 0 emptyToc = some (.ok ⟨initial.heap, 0, 0, [0]⟩) := rfl

/-- Components of a path that do not name a directory. -/
def skipped (dir : Str) : Bool := dir = [] || dir = Str.ascii "." || dir = Str.ascii ".."

/-- The exception of a walk that meets a file. -/
def treeError : Exn := .rc (Str.ascii "RC tree error")

/-- The loop of `addFile` over the components of the virtual directory. -/
def walk (h : Heap) (current : NodeId) : List Str → Heap × Except Exn NodeId
  | [] => (h, .ok current)
  | dir :: rest =>
    if skipped dir then walk h current rest
    else
      match h.find current dir with
      | none =>
        match h.newDirectory dir (some current) with
        | .error e => (h, .error e)
        | .ok (h', d) => walk h' d rest
      | some node =>
        if h.isDirectory node then walk h node rest else (h, .error treeError)

variable (lib : PathLib)

/-- The components `addFile` walks: those of the base path, a leading `:/` removed, and of the
parent path of the file. -/
def walked (basePath path : Str) : List Str :=
  let base := if basePath.take 2 = Str.ascii ":/" then basePath.drop 2 else basePath
  lib.components (lib.append base (lib.parentPath path))

/-- The offset of the next file in the data array. -/
def nextOffset (entries : List FileEntry) : ℕ :=
  match entries.getLast? with
  | none => 0
  | some back => sizeT (back.offset + back.size)

/-- `RCBuilder::addFile`, with the exception it throws. -/
def addFile (fs : FileSystem) (b : RCBuilder) (basePath rp path : Str) : RCBuilder × Option Exn :=
  match walk b.heap b.root.rootDirectory (walked lib basePath path) with
  | (h, .error e) => ({ b with heap := h }, some e)
  | (h, .ok current) =>
    let relPath := lib.append rp path
    match fs relPath with
    | none => ({ b with heap := h }, some .filesystem)
    | some bytes =>
      let size := sizeT bytes.length
      let offset := nextOffset b.entriesList
      match h.newFile offset size (lib.filename relPath) (some current) with
      | .error e => ({ b with heap := h }, some e)
      | .ok (h', _) =>
        ({ b with heap := h', entriesList := b.entriesList ++ [⟨relPath, size, offset⟩] }, none)

/-! ## What a call does to the tree -/

/-- The tree of the builder, from paths to entries. -/
def store (b : RCBuilder) : PathStore Str Extent := b.heap.store b.root.rootDirectory

/-- The invariant of the tree of a builder. -/
structure Ok (b : RCBuilder) : Prop where
  heap : Heap.Ok b.heap
  root : b.heap.isDirectory b.root.rootDirectory
  name : b.heap.name? b.root.rootDirectory = some (Str.ascii ":/")
  parent : b.heap.parent? b.root.rootDirectory = none

theorem initial_ok : Ok initial :=
  ⟨Root.withRoot_ok ok_nil 0, rfl, rfl, rfl⟩

/-- The names of the directories a walk goes through. -/
def names (comps : List Str) : List Str := comps.filter fun dir => !skipped dir

theorem names_cons_of_skipped {dir : Str} (hs : skipped dir) (rest : List Str) :
    names (dir :: rest) = names rest := by
  simp [names, hs]

theorem names_cons {dir : Str} (hs : ¬ skipped dir) (rest : List Str) :
    names (dir :: rest) = dir :: names rest := by
  simp [names, hs]

theorem store_eq_directory {h : Heap} {root current : ℕ} {pp : List Str}
    (hr : h.resolve root pp = some current) (hc : h.isDirectory current) :
    h.store root pp = some .directory := by
  simpa [Heap.store, hr] using isDirectory_iff.1 hc

/-- What a walk leaves: the directories `p` from `root` on exist, the last of them being `c`, and
none of them was a file. -/
structure Walked (h : Heap) (root : ℕ) (p : List Str) (h' : Heap) (c : ℕ) : Prop where
  ok : Heap.Ok h'
  views : Views h h'
  resolve : h'.resolve root p = some c
  directory : h'.isDirectory c
  store : h'.store root = (h.store root).mkdirs p
  noFile : ∀ q e, q <+: p → h.store root q ≠ some (.file e)

/-- **A walk that ends makes directories of the components.** -/
theorem walk_ok {root : ℕ} {comps : List Str} :
    ∀ {h h' : Heap} {current c : ℕ} {pp : List Str}, Heap.Ok h → root < h.length →
      h.resolve root pp = some current → h.isDirectory current →
      walk h current comps = (h', .ok c) → Walked h root (pp ++ names comps) h' c := by
  induction comps with
  | nil =>
    intro h h' current c pp hok hlt hr hc hw
    simp only [walk, Prod.mk.injEq, Except.ok.injEq] at hw
    obtain ⟨rfl, rfl⟩ := hw
    have hs := store_eq_directory hr hc
    rw [names, List.filter_nil, List.append_nil]
    refine ⟨hok, .refl h, hr, hc, (PathStore.mkdirs_self (store_isTree h root) hs).symm,
      fun q e hq hfile => ?_⟩
    rw [← PathStore.mkdirs_self (store_isTree h root) hs, PathStore.mkdirs, if_pos hq] at hfile
    cases hfile
  | cons dir rest ih =>
    intro h h' current c pp hok hlt hr hc hw
    by_cases hs : skipped dir
    · rw [names_cons_of_skipped hs]
      rw [walk, if_pos hs] at hw
      exact ih hok hlt hr hc hw
    · rw [names_cons hs, List.append_cons]
      rw [walk, if_neg hs] at hw
      cases hf : h.find current dir with
      | none =>
        obtain ⟨h₁, hnew, ha⟩ := newNode_attached hc dir (.directory ∅)
        simp only [hf, newDirectory, hnew] at hw
        have hr₁ : h₁.resolve root (pp ++ [dir]) = some h.length := by
          rw [resolve_attached hok hc rfl ha hr, if_pos rfl]
        have hlt₁ : root < h₁.length := hlt.trans (by rw [ha.length]; exact Nat.lt_succ_self _)
        have hw₁ := ih (hok.attached hc rfl ha) hlt₁
          hr₁ (by simp [isDirectory, ha.entryOf, NodeData.entry]) hw
        -- nothing was at the new directory's path, nor below
        have hnone : h.store root (pp ++ [dir]) = none := by
          have : h.child current dir = none := hf
          simp [Heap.store, resolve_concat, hr, this]
        have hplace : h₁.store root = (h.store root).place (pp ++ [dir]) .directory :=
          store_attached hok hc rfl ha hlt hr
        refine ⟨hw₁.ok, ha.views.trans hw₁.views, hw₁.resolve, hw₁.directory, ?_,
          fun q e hq hfile => ?_⟩
        · rw [hw₁.store, hplace]
          exact PathStore.mkdirs_place (store_isTree h root) hnone (List.prefix_append _ _)
        · apply hw₁.noFile q e hq
          have hne : ¬ pp ++ [dir] <+: q := fun hp => by
            rw [(store_isTree h root).eq_none_below hnone hp] at hfile
            cases hfile
          have hne' : q ≠ pp ++ [dir] := fun he => hne (he ▸ List.prefix_rfl)
          rw [hplace, PathStore.place, if_neg hne', if_neg hne, hfile]
      | some node =>
        by_cases hd : h.isDirectory node
        · simp only [hf, hd, if_true] at hw
          have hchild : h.child current dir = some node := hf
          exact ih hok hlt (by simp [resolve_concat, hr, hchild]) hd hw
        · simp [hf, hd] at hw

/-- A walk from a directory without entries does not throw. -/
theorem walk_fresh {comps : List Str} :
    ∀ {h : Heap} {current : ℕ}, Heap.Ok h → h.isDirectory current →
      (∀ k, h.child current k = none) → ∃ h' c, walk h current comps = (h', .ok c) := by
  induction comps with
  | nil => exact fun _ _ _ => ⟨_, _, rfl⟩
  | cons dir rest ih =>
    intro h current hok hc hempty
    by_cases hs : skipped dir
    · rw [walk, if_pos hs]
      exact ih hok hc hempty
    · obtain ⟨h₁, hnew, ha⟩ := newNode_attached hc dir (.directory ∅)
      simp only [walk, if_neg hs, find, hempty, newDirectory, hnew]
      refine ih (hok.attached hc rfl ha) (by simp [isDirectory, ha.entryOf, NodeData.entry])
        fun k => ?_
      simp [ha.child hc rfl, ha.ne_length.symm]

/-- A walk that throws has met a file before it made any directory. -/
theorem walk_error {comps : List Str} :
    ∀ {h h' : Heap} {current : ℕ} {e : Exn}, Heap.Ok h → h.isDirectory current →
      walk h current comps = (h', .error e) → h' = h ∧ e = treeError := by
  induction comps with
  | nil => simp [walk]
  | cons dir rest ih =>
    intro h h' current e hok hc hw
    by_cases hs : skipped dir
    · rw [walk, if_pos hs] at hw
      exact ih hok hc hw
    · rw [walk, if_neg hs] at hw
      cases hf : h.find current dir with
      | none =>
        obtain ⟨h₁, hnew, ha⟩ := newNode_attached hc dir (.directory ∅)
        simp only [hf, newDirectory, hnew] at hw
        obtain ⟨h₂, c, hfresh⟩ := @walk_fresh rest h₁ h.length (hok.attached hc rfl ha)
          (by simp [isDirectory, ha.entryOf, NodeData.entry])
          (fun k => by simp [ha.child hc rfl, ha.ne_length.symm])
        rw [hfresh] at hw
        cases hw
      | some node =>
        by_cases hd : h.isDirectory node
        · simp only [hf, hd, if_true] at hw
          exact ih hok hd hw
        · simp only [hf, hd, Bool.false_eq_true, if_false, Prod.mk.injEq, Except.error.injEq] at hw
          exact ⟨hw.1.symm, hw.2.symm⟩

/-- The path under which a call of `addFile` stores its file: the directories it walks, followed by
the file name. -/
def virtualPath (basePath rp path : Str) : List Str :=
  names (walked lib basePath path) ++ [lib.filename (lib.append rp path)]

/-- What a call of `addFile` that returns has done. -/
structure Added (fs : FileSystem) (b : RCBuilder) (basePath rp path : Str) (e : Extent)
    (bytes : List UInt8) (b' : RCBuilder) : Prop where
  ok : Ok b'
  root : b'.root = b.root
  views : Views b.heap b'.heap
  created : ∃ n : ℕ, b.heap.length ≤ n ∧
    b'.heap.resolve b.root.rootDirectory (virtualPath lib basePath rp path) = some n ∧
    b'.heap.entryOf n = some (.file e)
  contents : fs (lib.append rp path) = some bytes
  size : e.size = sizeT bytes.length
  offset : e.offset = nextOffset b.entriesList
  entries : b'.entriesList = b.entriesList ++ [⟨lib.append rp path, e.size, e.offset⟩]
  store : b'.store = b.store.put (virtualPath lib basePath rp path) e
  noFile : ∀ q x, q <+: virtualPath lib basePath rp path → q ≠ virtualPath lib basePath rp path →
    b.store q ≠ some (.file x)

variable {lib} {fs : FileSystem} {b b' : RCBuilder} {basePath rp path : Str}

/-- **A call that returns puts one file into the tree** and one entry into the list. -/
theorem addFile_ok (hb : Ok b) (h : addFile lib fs b basePath rp path = (b', none)) :
    ∃ e bytes, Added lib fs b basePath rp path e bytes b' := by
  obtain ⟨hok, hroot, hname, hparent⟩ := hb
  rcases hw : walk b.heap b.root.rootDirectory (walked lib basePath path) with ⟨h₁, e | current⟩
  · simp [addFile, hw] at h
  · have hwalked := walk_ok hok (lt_of_isDirectory hroot) (resolve_nil _ _) hroot hw
    rw [List.nil_append] at hwalked
    cases hfs : fs (lib.append rp path) with
    | none => simp [addFile, hw, hfs] at h
    | some bytes =>
      set e : Extent := ⟨nextOffset b.entriesList, sizeT bytes.length⟩ with he
      obtain ⟨h₂, hnew, ha⟩ := newNode_attached hwalked.directory
        (lib.filename (lib.append rp path)) (.file e)
      simp only [addFile, hw, hfs, newFile, ← he, hnew, Prod.mk.injEq, and_true] at h
      subst h
      have hlt := lt_of_isDirectory hroot
      have hlt' := hlt.trans_le hwalked.views.le
      have hviews := hwalked.views.trans ha.views
      have hstore : h₂.store b.root.rootDirectory =
          b.store.put (virtualPath lib basePath rp path) e := by
        rw [store_attached hwalked.ok hwalked.directory rfl ha hlt' hwalked.resolve,
          hwalked.store, NodeData.entry, PathStore.place_mkdirs]
        rfl
      refine ⟨e, bytes, ⟨⟨hwalked.ok.attached hwalked.directory rfl ha, ?_, ?_, ?_⟩, rfl, hviews,
        ⟨h₁.length, hwalked.views.le, ?_, ?_⟩, hfs, rfl, rfl, rfl, hstore, fun q x hq hne => ?_⟩⟩
      · rw [isDirectory_iff, hviews.entry _ hlt]
        exact isDirectory_iff.1 hroot
      · exact (hviews.name _ hlt).trans hname
      · exact (hviews.parent _ hlt).trans hparent
      · rw [virtualPath, resolve_attached hwalked.ok hwalked.directory rfl ha hwalked.resolve,
          if_pos rfl]
      · rw [ha.entryOf, if_pos rfl]
        rfl
      · rcases List.prefix_concat_iff.1 hq with rfl | hq
        · exact absurd rfl hne
        · exact hwalked.noFile q x hq

/-- A call that throws `RC tree error` changes nothing. -/
theorem addFile_treeError (hb : Ok b)
    (h : addFile lib fs b basePath rp path = (b', some treeError)) : b' = b := by
  obtain ⟨hok, hroot, -, -⟩ := hb
  rcases hw : walk b.heap b.root.rootDirectory (walked lib basePath path) with ⟨h₁, e | current⟩
  · obtain ⟨rfl, -⟩ := walk_error hok hroot hw
    simp only [addFile, hw, Prod.mk.injEq] at h
    exact h.1.symm
  · have hwalked := walk_ok hok (lt_of_isDirectory hroot) (resolve_nil _ _) hroot hw
    cases hfs : fs (lib.append rp path) with
    | none => simp [addFile, hw, hfs, treeError] at h
    | some bytes =>
      obtain ⟨h₂, hnew, -⟩ := newNode_attached hwalked.directory
        (lib.filename (lib.append rp path))
        (.file ⟨nextOffset b.entriesList, sizeT bytes.length⟩)
      simp [addFile, hw, hfs, newFile, hnew] at h

/-! ## Sequences of calls -/

/-- The arguments of a call of `addFile`, with the file system it sees. -/
structure AddFileCall where
  fs : FileSystem
  basePath : Str
  rp : Str
  path : Str

variable (lib)

/-- The path under which the call stores its file. -/
def AddFileCall.virtualPath (c : AddFileCall) : List Str :=
  RCBuilder.virtualPath lib c.basePath c.rp c.path

/-- A sequence of calls, each of which ends in an allowed way. -/
def addFiles (allowed : Option Exn → Bool) (b : RCBuilder) : List AddFileCall → Option RCBuilder
  | [] => some b
  | c :: cs =>
    match addFile lib c.fs b c.basePath c.rp c.path with
    | (b', r) => if allowed r then addFiles allowed b' cs else none

/-- What every allowed call preserves, a sequence of calls preserves. -/
theorem addFiles_induct {lib : PathLib} {allowed : Option Exn → Bool} {P : RCBuilder → Prop}
    (hstep : ∀ (b : RCBuilder) (c : AddFileCall) (b' : RCBuilder) (r : Option Exn), P b →
      addFile lib c.fs b c.basePath c.rp c.path = (b', r) → allowed r → P b')
    {calls : List AddFileCall} :
    ∀ {b b' : RCBuilder}, P b → addFiles lib allowed b calls = some b' → P b' := by
  induction calls with
  | nil =>
    intro b b' hb h
    obtain rfl : b = b' := Option.some.inj h
    exact hb
  | cons c cs ih =>
    intro b b' hb h
    rcases hc : addFile lib c.fs b c.basePath c.rp c.path with ⟨b₁, r⟩
    simp only [addFiles, hc] at h
    split at h
    · next hr => exact ih (hstep b c b₁ r hb hc hr) h
    · cases h

/-- Calls may only return. -/
def returns (r : Option Exn) : Bool := r = none

/-- Calls may return or throw `RC tree error`. -/
def returnsOrTreeError (r : Option Exn) : Bool := r = none || r = some treeError

end RCBuilder

end Jord.Rc
