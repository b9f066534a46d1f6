import Jord.Rc.Declares
import Jord.Rc.Layout
import Jord.Rc.Startup

/-!
# From the files to the loader

The whole way of a resource: calls of `addFile` collect files, `writeFile` writes a source text, the
text is compiled and declares two arrays, the constructor of `Root` reads them when the program
starts, the pack is registered, and `rc_load` finds the file in it.

* `packed` is what calls of `addFile` are for: each puts the contents of a file under its virtual
  path, in the place of what was there.
* `Deployed` are the states of a process that has registered packs one after the other, each of them
  written by a builder of its own and compiled, together with the stores that the packs are for.
* `rcLoad_deployed`: in such a state `rc_load` looks the path up in the stores in turn.
* `exists_deployed`: a pack can always be written, compiled and registered as the next one.
-/

namespace Jord.Rc

open RCBuilder

variable (lib : PathLib)

/-! ## What it is for -/

/-- The files that calls of `addFile` pack, by virtual path. -/
def packed (calls : List AddFileCall) : PathStore Str (List UInt8) :=
  calls.foldl (fun s c => s.put (c.virtualPath lib) (c.contents lib)) .empty

/-- What the first store that has something at a path has there. -/
def firstAt (stores : List (PathStore Str (List UInt8))) (q : Str) :
    Option (PathStore.Entry (List UInt8)) :=
  stores.findSome? fun store => store (Str.split q)

/-- Loading from stores in turn: the first that has something at the path decides. -/
def loadFrom (stores : List (PathStore Str (List UInt8))) (s : Str) : Load :=
  match firstAt stores (s.drop 2) with
  | some (.file bytes) => .loadBuffer bytes s
  | _ => .errFile (Packs.failedToFind s)

/-- The run of a builder up to `writeFile`: the calls return, their files are as they were when they
are read again, the sizes fit `size_t`, nothing that is inserted into the text changes its meaning,
and the name of the module can be the beginning of an identifier. -/
structure Builds (calls : List AddFileCall) (b : RCBuilder) (fs : FileSystem) (name : Str) :
    Prop where
  added : addFiles lib returns RCBuilder.initial calls = some b
  unchanged : ∀ c ∈ calls, fs (c.source lib) = c.fs (c.source lib)
  fits : (calls.flatMap (·.contents lib)).length < 2 ^ 64
  readable : Readable fs b
  named : Cpp.Word name

/-- The process `P` has registered packs for the stores: of each pack the text has been written, and
`INIT_RESOURCE` has run on the arrays that the text declares. -/
inductive Deployed : List (PathStore Str (List UInt8)) → Packs → Prop
  | start : Deployed [] ⟨[], [], []⟩
  | pack {stores : List (PathStore Str (List UInt8))} {P : Packs} (hP : Deployed stores P)
      {calls : List AddFileCall} {b : RCBuilder} {fs : FileSystem} {name : Str}
      (hb : Builds lib calls b fs name) {order : Heap.Order} (horder : order.Valid) {fuel : ℕ}
      {out : List Chunk}
      (hout : writeFile fuel order fs true { b with moduleName := name } = some (.ok out))
      {items : List TOCItem} {data : List UInt8} (hdecl : Declares out name items data)
      {fuel' : ℕ}
      {c : Root.Constructed}
      (hc : Root.construct fuel' P.heap P.roots.length items = some (.ok c)) :
      Deployed (stores ++ [packed lib calls]) (P.initResource c data)

/-! ## The packed files -/

/-- What an extent cuts out of an array. -/
def cut (data : List UInt8) (e : Extent) : List UInt8 := (data.drop e.offset).take e.size

variable {lib}

theorem packed_concat (calls : List AddFileCall) (c : AddFileCall) :
    packed lib (calls ++ [c]) = (packed lib calls).put (c.virtualPath lib) (c.contents lib) := by
  unfold packed
  rw [List.foldl_append]
  rfl

theorem store_initial : RCBuilder.initial.store = .empty := by
  funext p
  cases p with
  | nil => rfl
  | cons k p =>
    have : RCBuilder.initial.heap.child RCBuilder.initial.root.rootDirectory k = none := rfl
    simp [RCBuilder.store, Heap.store, Heap.resolve_cons, this, PathStore.empty]

/-- **The tree of the builder holds the packed files**: each extent cuts the contents of the file
out of every array that begins with the contents of the files. -/
theorem map_store_addFiles {data : List UInt8} {calls : List AddFileCall} :
    ∀ {b : RCBuilder}, addFiles lib returns RCBuilder.initial calls = some b →
      calls.flatMap (·.contents lib) <+: data → (calls.flatMap (·.contents lib)).length < 2 ^ 64 →
      b.store.map (cut data) = packed lib calls := by
  induction calls using List.reverseRecOn with
  | nil =>
    intro b h _ _
    obtain rfl : RCBuilder.initial = b := Option.some.inj h
    rw [store_initial, PathStore.map_empty]
    rfl
  | append_singleton calls c ih =>
    intro b h hpre hlt
    rw [addFiles_append] at h
    obtain ⟨b₁, hcalls, h⟩ := Option.bind_eq_some_iff.1 h
    obtain ⟨b₂, hc, hnil⟩ := addFiles_cons h
    obtain rfl : b₂ = b := Option.some.inj hnil
    obtain ⟨hok, -, -⟩ := addFiles_views initial_ok hcalls
    obtain ⟨e, bytes, hadd⟩ := addFile_ok hok hc
    have hcontents : c.contents lib = bytes := by
      simp [AddFileCall.contents, AddFileCall.source, hadd.contents]
    rw [List.flatMap_append, List.flatMap_singleton] at hpre hlt
    rw [List.length_append] at hlt
    have hfits : (calls.flatMap (·.contents lib)).length < 2 ^ 64 := by omega
    obtain ⟨hentries, -⟩ := addFiles_initial hcalls hfits
    -- the new extent begins where the contents so far end
    have hoffset : e.offset = (calls.flatMap (·.contents lib)).length := by
      rw [← nextOffset_entriesFrom hfits, ← hentries]
      exact hadd.offset
    have hsize : e.size = (c.contents lib).length := by
      rw [hcontents] at hlt ⊢
      exact hadd.size.trans (Nat.mod_eq_of_lt (by omega))
    have hcut : cut data e = c.contents lib := by
      obtain ⟨rest, rfl⟩ := hpre
      rw [cut, hoffset, hsize, List.append_assoc, List.drop_left, List.take_left]
    rw [hadd.store, PathStore.map_put, hcut,
      ih hcalls ((List.prefix_append _ _).trans hpre) hfits, packed_concat]
    rfl

/-- A path that leads somewhere is on the way to a packed file. -/
theorem exists_prefix_of_packed {calls : List AddFileCall} {q : List Str} (hq : q ≠ [])
    (h : packed lib calls q ≠ none) : ∃ c ∈ calls, q <+: c.virtualPath lib := by
  induction calls using List.reverseRecOn with
  | nil => exact absurd (if_neg hq) h
  | append_singleton calls c ih =>
    rw [packed_concat] at h
    by_cases hc : q <+: c.virtualPath lib
    · exact ⟨c, by simp, hc⟩
    · have hne : q ≠ c.virtualPath lib := fun he => hc (he ▸ List.prefix_rfl)
      rw [PathStore.put, if_neg hne, if_neg hc] at h
      split_ifs at h with hbelow
      · exact absurd rfl h
      · obtain ⟨c', hc', hpre⟩ := ih h
        exact ⟨c', List.mem_append_left _ hc', hpre⟩

/-- A file is packed under its virtual path, if no later one is put at, above or below it. -/
theorem packed_of_apart {pre post : List AddFileCall} {c : AddFileCall}
    (hpost : ∀ c' ∈ post, ¬ c.virtualPath lib <+: c'.virtualPath lib ∧
      ¬ c'.virtualPath lib <+: c.virtualPath lib) :
    packed lib (pre ++ c :: post) (c.virtualPath lib) = some (.file (c.contents lib)) := by
  induction post using List.reverseRecOn with
  | nil =>
    rw [packed_concat]
    exact PathStore.put_self
  | append_singleton post c' ih =>
    obtain ⟨habove, hbelow⟩ := hpost c' (by simp)
    rw [← List.cons_append, ← List.append_assoc, packed_concat,
      PathStore.put_of_apart habove hbelow]
    exact ih fun d hd => hpost d (List.mem_append_left _ hd)

/-- What is inserted into the text is harmless, if it is in every call. -/
theorem readable_of_calls {calls : List AddFileCall} {b : RCBuilder} {fs : FileSystem}
    (hadded : addFiles lib returns RCBuilder.initial calls = some b)
    (hunchanged : ∀ c ∈ calls, fs (c.source lib) = c.fs (c.source lib))
    (hfits : (calls.flatMap (·.contents lib)).length < 2 ^ 64)
    (hnames : ∀ c ∈ calls, ∀ k ∈ c.virtualPath lib, Cpp.Plain k)
    (hbytes : ∀ c ∈ calls, ∀ x ∈ c.contents lib, x < 128)
    (hsources : ∀ c ∈ calls, Cpp.newline ∉ c.source lib) : Readable fs b := by
  obtain ⟨hentries, hcontents⟩ := addFiles_initial hadded hfits
  have hmem : ∀ e ∈ b.entriesList, ∃ c ∈ calls, e.path = c.source lib ∧
      fs e.path = some (c.contents lib) := by
    intro e he
    obtain ⟨pre, c, post, hcalls, rfl⟩ := mem_entriesFrom (hentries ▸ he)
    have hc : c ∈ calls := by simp [hcalls]
    exact ⟨c, hc, rfl, (hunchanged c hc).trans (hcontents c hc)⟩
  constructor
  · intro p k hk
    have hmap := congrFun (map_store_addFiles hadded List.prefix_rfl hfits) (p ++ [k])
    have hne : packed lib calls (p ++ [k]) ≠ none := by
      rw [← hmap, PathStore.map, ne_eq, Option.map_eq_none_iff]
      exact hk
    obtain ⟨c, hc, hpre⟩ := exists_prefix_of_packed (by simp) hne
    exact hnames c hc k (hpre.subset (by simp))
  · intro e he x hx
    obtain ⟨c, hc, -, hfs⟩ := hmem e he
    rw [hfs] at hx
    exact hbytes c hc x (List.mem_of_mem_take hx)
  · intro e he
    obtain ⟨c, hc, hpath, -⟩ := hmem e he
    exact silent_of_notMem (hpath ▸ hsources c hc)

/-! ## A pack -/

/-- What is written from a builder, and what it is read as. -/
structure Written (lib : PathLib) (calls : List AddFileCall) (b : RCBuilder)
    (F : Forest Str Extent) (name : Str) (out : List Chunk) : Prop where
  wf : F.Wf
  store : F.entryAt = b.store
  declares : Declares out name (packItems F ++ [sentinel]) (dataOf lib calls)

/-- **The text of a builder** is written, and it declares the items of the tree and the contents of
the files. -/
theorem Builds.written {calls : List AddFileCall} {b : RCBuilder} {fs : FileSystem} {name : Str}
    (hb : Builds lib calls b fs name) {order : Heap.Order} (horder : order.Valid) :
    ∃ F out, Written lib calls b F name out ∧ ∀ fuel > F.size,
      writeFile fuel order fs true { b with moduleName := name } = some (.ok out) := by
  obtain ⟨F, hF, hwf, hstore⟩ := (addFiles_reached (addFiles_returns hb.added)).exists_forest horder
  obtain ⟨hentries, hcontents⟩ := addFiles_initial hb.added hb.fits
  have hpacked : Packed fs b.entriesList (calls.map (·.contents lib)) :=
    hentries ▸ packed_entriesFrom 0 fun c hc => (hb.unchanged c hc).trans (hcontents c hc)
  refine ⟨F, _, ⟨hwf, hstore, ?_⟩, fun fuel hfuel =>
    writeFile_eq (b := { b with moduleName := name }) hF hpacked hfuel⟩
  have h := declares_output hwf hstore hpacked hb.readable hb.named
  rwa [← List.flatMap_def] at h

/-- More fuel does not change what is written. -/
theorem writeFile_mono {m n : ℕ} (hmn : m ≤ n) {order : Heap.Order} {fs : FileSystem}
    {b : RCBuilder} {r : Except Fault (List Chunk)} (h : writeFile m order fs true b = some r) :
    writeFile n order fs true b = some r := by
  obtain ⟨toc, htoc, hr⟩ := Option.map_eq_some_iff.1 h
  exact Option.map_eq_some_iff.2 ⟨toc, writeToc_mono hmn htoc, hr⟩

/-- The pack `r` of `P` is for the store. -/
def Holds (P : Packs) (r : RootId) (store : PathStore Str (List UInt8)) : Prop :=
  ∃ root, P.roots[r]? = some root ∧
    (P.heap.store root.rootDirectory).map (cut root.baseAddress) = store

/-- The packs that were registered before are as they were. -/
theorem Holds.initResource {P : Packs} (hP : Packs.Ok P) {F : Forest Str Extent}
    {c : Root.Constructed} (hc : Root.Decoded P.heap P.roots.length F c.heap) (data : List UInt8)
    {r : RootId} {store : PathStore Str (List UInt8)} (h : Holds P r store) :
    Holds (P.initResource c data) r store := by
  obtain ⟨root, hroot, hstore⟩ := h
  obtain ⟨hlt, -⟩ := hP.root r root hroot
  refine ⟨root, ?_, ?_⟩
  · unfold Packs.initResource
    rw [List.getElem?_append_left (List.getElem?_eq_some_iff.1 hroot).1, hroot]
  · rw [← hstore]
    congr 1
    exact Heap.store_frame hP.heap hlt fun i hi _ => hc.get i hi

/-- **What the registered packs are for.** -/
theorem Deployed.holds {stores : List (PathStore Str (List UInt8))} {P : Packs}
    (h : Deployed lib stores P) :
    Packs.Reachable P ∧ List.Forall₂ (Holds P) P.resources stores := by
  induction h with
  | start => exact ⟨.start, .nil⟩
  | @pack stores P _ calls b fs name hb order horder fuel out hout items data hdecl fuel' c hc ih =>
    obtain ⟨hP, hall⟩ := ih
    refine ⟨hP.initResource data hc, ?_⟩
    obtain ⟨F, out', hw, hwrite⟩ := hb.written horder
    -- the text and what it declares do not depend on the fuel
    obtain rfl : out = out' := by
      have h₁ := writeFile_mono (Nat.le_max_left fuel (F.size + 1)) hout
      rw [hwrite _ (Nat.lt_of_succ_le (Nat.le_max_right _ _))] at h₁
      exact (Except.ok.inj (Option.some.inj h₁)).symm
    obtain ⟨rfl, rfl⟩ := hdecl.unique hw.declares
    obtain ⟨h', hrun, hdec⟩ := Root.construct_tocItems hP.ok.heap P.roots.length (Str.ascii ":/")
      hw.wf [sentinel] (Nat.lt_of_succ_le (Nat.le_max_right fuel' (F.size + 1)))
    have hmono := Root.construct_mono hc (Nat.le_max_left fuel' (F.size + 1))
    obtain rfl := Except.ok.inj (Option.some.inj (hrun.symm.trans hmono))
    refine List.rel_append (hall.imp fun r store hr => hr.initResource hP.ok hdec _) (.cons ?_ .nil)
    refine ⟨⟨dataOf lib calls, P.heap.length⟩, List.getElem?_concat_length, ?_⟩
    change (h'.store P.heap.length).map (cut (dataOf lib calls)) = packed lib calls
    rw [hdec.store, hw.store]
    exact map_store_addFiles hb.added (List.prefix_append _ _) hb.fits

/-! ## The loader -/

/-- What the first pack that has something at a path has there. -/
structure First (P : Packs) (q : Str) (rs : List RootId)
    (e : Option (PathStore.Entry (List UInt8))) : Prop where
  nothing : e = none → rs.findSome? (P.entryAt q) = none
  directory : e = some .directory → rs.findSome? (P.entryAt q) = some .directory
  file : ∀ bytes, e = some (.file bytes) → (∃ x, rs.findSome? (P.entryAt q) = some (.file x)) ∧
    rs.findSome? (P.fileAt q) = some bytes

theorem first_of_holds {P : Packs} (q : Str) {rs : List RootId}
    {stores : List (PathStore Str (List UInt8))} (h : List.Forall₂ (Holds P) rs stores) :
    First P q rs (firstAt stores q) := by
  induction h with
  | nil =>
    constructor
    · exact fun _ => rfl
    · rintro ⟨⟩
    · rintro _ ⟨⟩
  | @cons r store rs stores hr _ ih =>
    obtain ⟨root, hroot, rfl⟩ := hr
    have hentry : P.entryAt q r = P.heap.store root.rootDirectory (Str.split q) := by
      rw [Packs.entryAt, hroot]
      rfl
    simp only [firstAt, List.findSome?_cons, PathStore.map] at ih ⊢
    rcases hs : P.heap.store root.rootDirectory (Str.split q) with _ | _ | e
    · rw [hs] at hentry
      have hfile : P.fileAt q r = none := by
        rw [Packs.fileAt, hroot, hentry]
      constructor
      · intro h
        rw [List.findSome?_cons, hentry]
        exact ih.nothing h
      · intro h
        rw [List.findSome?_cons, hentry]
        exact ih.directory h
      · intro bytes h
        rw [List.findSome?_cons, hentry, List.findSome?_cons, hfile]
        exact ih.file bytes h
    · rw [hs] at hentry
      constructor
      · rintro ⟨⟩
      · intro _
        rw [List.findSome?_cons, hentry]
      · rintro _ ⟨⟩
    · rw [hs] at hentry
      have hfile : P.fileAt q r = some (cut root.baseAddress e) := by
        rw [Packs.fileAt, hroot, hentry]
        rfl
      constructor
      · rintro ⟨⟩
      · rintro ⟨⟩
      · rintro _ ⟨⟩
        rw [List.findSome?_cons, hentry, List.findSome?_cons, hfile]
        exact ⟨⟨e, rfl⟩, rfl⟩

/-- **What `rc_load` loads.** After any number of packs have been written, compiled and registered,
it looks a path up in the stores that the packs are for, in the order in which they were
registered. -/
theorem rcLoad_deployed {stores : List (PathStore Str (List UInt8))} {P : Packs}
    (h : Deployed lib stores P) {s : Str} (hs : 2 ≤ s.length) :
    P.rcLoad s = .ok (loadFrom stores s) := by
  obtain ⟨hP, hall⟩ := h.holds
  have hfirst := first_of_holds (s.drop 2) hall
  unfold loadFrom
  rcases he : firstAt stores (s.drop 2) with _ | _ | bytes
  · apply Packs.rcLoad_errFile hP.ok hs
    simp [hfirst.nothing he]
  · apply Packs.rcLoad_errFile hP.ok hs
    simp [hfirst.directory he]
  · obtain ⟨⟨x, hx⟩, hbytes⟩ := hfirst.file bytes he
    obtain ⟨chunk, hload, hchunk⟩ := Packs.rcLoad_file hP.ok hs hx
    obtain rfl := Option.some.inj (hchunk.symm.trans hbytes)
    exact hload

/-- **A pack can be deployed.** Its text is written, declares two arrays, and on these the
constructor of `Root` returns, whatever has been registered before. -/
theorem exists_deployed {stores : List (PathStore Str (List UInt8))} {P : Packs}
    (h : Deployed lib stores P) {calls : List AddFileCall} {b : RCBuilder} {fs : FileSystem}
    {name : Str} (hb : Builds lib calls b fs name) {order : Heap.Order} (horder : order.Valid) :
    ∃ out items data c bound, Declares out name items data ∧
      (∀ fuel ≥ bound,
        writeFile fuel order fs true { b with moduleName := name } = some (.ok out) ∧
        Root.construct fuel P.heap P.roots.length items = some (.ok c)) ∧
      Deployed lib (stores ++ [packed lib calls]) (P.initResource c data) := by
  obtain ⟨F, out, hw, hwrite⟩ := hb.written horder
  obtain ⟨hP, -⟩ := h.holds
  obtain ⟨h', hrun, -⟩ := Root.construct_tocItems hP.ok.heap P.roots.length (Str.ascii ":/") hw.wf
    [sentinel] (Nat.lt_succ_self F.size)
  exact ⟨out, _, _, _, F.size + 1, hw.declares,
    fun fuel hfuel => ⟨hwrite fuel hfuel, Root.construct_mono hrun hfuel⟩,
    h.pack hb horder (hwrite _ (Nat.lt_succ_self _)) hw.declares hrun⟩

/-! ## Two files -/

/-- The file system in which the two files lie. -/
def twoFilesSystem : FileSystem := fun p =>
  if p = Str.ascii "src/a.lua" then some [1, 2] else some [3]

theorem builds_twoFiles : ∃ b, Builds .posix twoFiles b twoFilesSystem (Str.ascii "two") := by
  obtain ⟨b, hb⟩ := Option.isSome_iff_exists.1
    (show (addFiles .posix returns RCBuilder.initial twoFiles).isSome by decide)
  have hunchanged : ∀ c ∈ twoFiles, twoFilesSystem (c.source .posix) = c.fs (c.source .posix) := by
    decide +kernel
  have hfits : (twoFiles.flatMap (·.contents .posix)).length < 2 ^ 64 := by decide
  have hnames : ∀ c ∈ twoFiles, ∀ k ∈ c.virtualPath .posix, Cpp.Plain k := by
    unfold Cpp.Plain
    decide +kernel
  exact ⟨b, hb, hunchanged, hfits,
    readable_of_calls hb hunchanged hfits hnames (by decide +kernel) (by decide +kernel),
    by decide +kernel, by decide +kernel⟩

theorem rcLoad_deployed_twoFiles : ∃ P, Deployed .posix [packed .posix twoFiles] P ∧
    P.rcLoad (Str.ascii ":/lua/b/c.lua") =
      .ok (loadFrom [packed .posix twoFiles] (Str.ascii ":/lua/b/c.lua")) ∧
    loadFrom [packed .posix twoFiles] (Str.ascii ":/lua/b/c.lua") =
      .loadBuffer [3] (Str.ascii ":/lua/b/c.lua") := by
  obtain ⟨b, hb⟩ := builds_twoFiles
  obtain ⟨F, out, hw, hwrite⟩ := hb.written inPlace_valid
  obtain ⟨h', hrun, -⟩ := Root.construct_tocItems Heap.ok_nil 0 (Str.ascii ":/") hw.wf [sentinel]
    (Nat.lt_succ_self F.size)
  have hP := Deployed.start.pack hb inPlace_valid
    (hwrite _ (Nat.lt_succ_self _)) hw.declares hrun
  exact ⟨_, hP, rcLoad_deployed hP (by decide), by decide⟩

end Jord.Rc
