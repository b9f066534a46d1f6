import Jord.Rc.RoundTrip

/-!
# The layout of the data array

The offset of a file is computed when the file is added, from the entry before it; its bytes are
written later, by another loop. `entriesFrom` is the list of entries that calls of `addFile` leave
(`addFiles_entries`), its offsets being the lengths of what comes before. The array is the contents
of the files one after the other, so that an entry cuts out the contents of its file
(`slice_entry`).
-/

namespace Jord.Rc.RCBuilder

open Heap

variable (lib : PathLib)

/-- The path of the file a call adds. -/
def AddFileCall.source (c : AddFileCall) : Str := lib.append c.rp c.path

/-- The contents of the file a call adds. -/
def AddFileCall.contents (c : AddFileCall) : List UInt8 := (c.fs (c.source lib)).getD []

/-- The entries of the calls, the first at offset `n`. -/
def entriesFrom : ℕ → List AddFileCall → List FileEntry
  | _, [] => []
  | n, c :: cs =>
    ⟨c.source lib, (c.contents lib).length, n⟩ :: entriesFrom (n + (c.contents lib).length) cs

variable {lib}

theorem addFiles_append {allowed : Option Exn → Bool} {b : RCBuilder} (cs cs' : List AddFileCall) :
    addFiles lib allowed b (cs ++ cs') =
      (addFiles lib allowed b cs).bind fun b' => addFiles lib allowed b' cs' := by
  induction cs generalizing b with
  | nil => rfl
  | cons c cs ih =>
    simp only [List.cons_append, addFiles]
    split
    · exact ih
    · rfl

/-- The first call of a sequence of calls that return. -/
theorem addFiles_cons {b b' : RCBuilder} {c : AddFileCall} {cs : List AddFileCall}
    (h : addFiles lib returns b (c :: cs) = some b') :
    ∃ b₁, addFile lib c.fs b c.basePath c.rp c.path = (b₁, none) ∧
      addFiles lib returns b₁ cs = some b' := by
  rcases hc : addFile lib c.fs b c.basePath c.rp c.path with ⟨b₁, r⟩
  simp only [addFiles, hc] at h
  split at h
  · next hr =>
    obtain rfl : r = none := by simpa [returns] using hr
    exact ⟨b₁, rfl, h⟩
  · cases h

/-- Calls that return are in particular calls that return or throw `RC tree error`. -/
theorem addFiles_returns {calls : List AddFileCall} {b b' : RCBuilder}
    (h : addFiles lib returns b calls = some b') :
    addFiles lib returnsOrTreeError b calls = some b' := by
  induction calls generalizing b with
  | nil => exact h
  | cons c cs ih =>
    obtain ⟨b₁, hc, h⟩ := addFiles_cons h
    simpa [addFiles, hc, returnsOrTreeError] using ih h

/-! ## The entries -/

theorem nextOffset_concat {entries : List FileEntry} {e : FileEntry}
    (he : e.offset + e.size < 2 ^ 64) : nextOffset (entries ++ [e]) = e.offset + e.size := by
  simp only [nextOffset, List.getLast?_concat]
  exact Nat.mod_eq_of_lt he

/-- **The entries that calls leave**, as long as their sizes fit `size_t`. -/
theorem addFiles_entries {calls : List AddFileCall} :
    ∀ {b b' : RCBuilder}, Ok b → addFiles lib returns b calls = some b' →
      nextOffset b.entriesList + (calls.flatMap (·.contents lib)).length < 2 ^ 64 →
      b'.entriesList = b.entriesList ++ entriesFrom lib (nextOffset b.entriesList) calls ∧
        ∀ c ∈ calls, c.fs (c.source lib) = some (c.contents lib) := by
  induction calls with
  | nil =>
    intro b b' _ h _
    obtain rfl : b = b' := Option.some.inj h
    simp [entriesFrom]
  | cons c cs ih =>
    intro b b' hok h hlt
    obtain ⟨b₁, hc, h⟩ := addFiles_cons h
    obtain ⟨e, bytes, hadd⟩ := addFile_ok hok hc
    have hcontents : c.contents lib = bytes := by
      simp [AddFileCall.contents, AddFileCall.source, hadd.contents]
    rw [List.flatMap_cons, List.length_append, hcontents, ← Nat.add_assoc] at hlt
    have hsize : e.size = bytes.length :=
      hadd.size.trans (Nat.mod_eq_of_lt (by omega))
    have hnext : nextOffset b₁.entriesList = nextOffset b.entriesList + bytes.length := by
      rw [hadd.entries, nextOffset_concat (by simp only [hadd.offset, hsize]; omega)]
      simp only [hadd.offset, hsize]
    obtain ⟨hentries, hfs⟩ := ih hadd.ok h (by omega)
    refine ⟨?_, List.forall_mem_cons.2 ⟨?_, hfs⟩⟩
    · rw [hentries, hnext, hadd.entries, entriesFrom, hcontents, hsize, hadd.offset,
        List.append_assoc]
      rfl
    · rw [hcontents]
      exact hadd.contents

theorem addFiles_initial {calls : List AddFileCall} {b : RCBuilder}
    (h : addFiles lib returns initial calls = some b)
    (hlt : (calls.flatMap (·.contents lib)).length < 2 ^ 64) :
    b.entriesList = entriesFrom lib 0 calls ∧
      ∀ c ∈ calls, c.fs (c.source lib) = some (c.contents lib) :=
  addFiles_entries initial_ok h ((Nat.zero_add _).symm ▸ hlt)

theorem entriesFrom_append (n : ℕ) (cs cs' : List AddFileCall) :
    entriesFrom lib n (cs ++ cs') =
      entriesFrom lib n cs ++ entriesFrom lib (n + (cs.flatMap (·.contents lib)).length) cs' := by
  induction cs generalizing n with
  | nil => simp [entriesFrom]
  | cons c cs ih => simp [entriesFrom, ih, Nat.add_assoc]

theorem length_entriesFrom (n : ℕ) (cs : List AddFileCall) :
    (entriesFrom lib n cs).length = cs.length := by
  induction cs generalizing n with
  | nil => rfl
  | cons c cs ih => simp [entriesFrom, ih]

/-- Each entry is that of a call. -/
theorem mem_entriesFrom {n : ℕ} {cs : List AddFileCall} {x : FileEntry}
    (hx : x ∈ entriesFrom lib n cs) :
    ∃ pre c post, cs = pre ++ c :: post ∧ x = ⟨c.source lib, (c.contents lib).length,
      n + (pre.flatMap (·.contents lib)).length⟩ := by
  induction cs generalizing n with
  | nil => cases hx
  | cons c cs ih =>
    rcases List.mem_cons.1 hx with rfl | hx
    · exact ⟨[], c, cs, rfl, rfl⟩
    · obtain ⟨pre, c', post, rfl, rfl⟩ := ih hx
      exact ⟨c :: pre, c', post, rfl, by simp [Nat.add_assoc]⟩

theorem le_offset {n : ℕ} {cs : List AddFileCall} {x : FileEntry}
    (hx : x ∈ entriesFrom lib n cs) : n ≤ x.offset := by
  obtain ⟨pre, c, post, -, rfl⟩ := mem_entriesFrom hx
  exact Nat.le_add_right _ _

/-- Each entry starts where the one before it ends. -/
theorem entriesFrom_isChain (n : ℕ) (cs : List AddFileCall) :
    (entriesFrom lib n cs).IsChain fun e e' => e'.offset = e.offset + e.size := by
  induction cs generalizing n with
  | nil => exact .nil
  | cons c cs ih =>
    cases cs with
    | nil => exact .singleton _
    | cons c' cs => exact .cons_cons rfl (ih _)

theorem entriesFrom_pairwise (n : ℕ) (cs : List AddFileCall) :
    (entriesFrom lib n cs).Pairwise fun e e' => e.offset + e.size ≤ e'.offset := by
  induction cs generalizing n with
  | nil => exact .nil
  | cons c cs ih => exact List.pairwise_cons.2 ⟨fun e' he' => le_offset he', ih _⟩

theorem entriesFrom_last {n : ℕ} {cs : List AddFileCall} {x : FileEntry}
    (hx : (entriesFrom lib n cs).getLast? = some x) :
    x.offset + x.size = n + (cs.flatMap (·.contents lib)).length := by
  rcases List.eq_nil_or_concat cs with rfl | ⟨cs, c, rfl⟩
  · cases hx
  · rw [List.concat_eq_append, entriesFrom_append, entriesFrom, entriesFrom,
      List.getLast?_concat] at hx
    obtain rfl := Option.some.inj hx
    simp [Nat.add_assoc]

/-! ## The array -/

/-- The data array of the calls. -/
def dataOf (lib : PathLib) (calls : List AddFileCall) : List UInt8 :=
  calls.flatMap (·.contents lib) ++ [0]

/-- **An entry cuts the contents of its file out of the array.** -/
theorem slice_entry (pre : List AddFileCall) (c : AddFileCall) (post : List AddFileCall) :
    ((dataOf lib (pre ++ c :: post)).drop (pre.flatMap (·.contents lib)).length).take
      (c.contents lib).length = c.contents lib := by
  have hsplit : dataOf lib (pre ++ c :: post) = pre.flatMap (·.contents lib) ++
      (c.contents lib ++ (post.flatMap (·.contents lib) ++ [0])) := by
    simp [dataOf]
  rw [hsplit, List.drop_left, List.take_left]

/-- The bytes the data loops write are the contents of the files. -/
theorem packed_entriesFrom {fs : FileSystem} {calls : List AddFileCall} (n : ℕ)
    (hfs : ∀ c ∈ calls, fs (c.source lib) = some (c.contents lib)) :
    Packed fs (entriesFrom lib n calls) (calls.map (·.contents lib)) := by
  induction calls generalizing n with
  | nil => exact .nil
  | cons c cs ih =>
    obtain ⟨hc, hcs⟩ := List.forall_mem_cons.1 hfs
    exact .cons ⟨_, hc, le_rfl, List.take_length.symm⟩ (ih _ hcs)

/-- Every file of the tree has an entry. -/
theorem addFiles_store_entries {calls : List AddFileCall} {b : RCBuilder}
    (h : addFiles lib returns initial calls = some b) {p : List Str} {e : Extent}
    (hp : b.store p = some (.file e)) :
    ∃ x ∈ b.entriesList, x.offset = e.offset ∧ x.size = e.size := by
  suffices h : Ok b ∧ ∀ p e, b.store p = some (.file e) →
      ∃ x ∈ b.entriesList, x.offset = e.offset ∧ x.size = e.size from h.2 p e hp
  refine addFiles_induct (P := fun b => Ok b ∧ ∀ p e, b.store p = some (.file e) →
    ∃ x ∈ b.entriesList, x.offset = e.offset ∧ x.size = e.size) (fun b c b' r hb hc hr => ?_)
    ⟨initial_ok, fun p e hp => ?_⟩ h
  · obtain rfl : r = none := by simpa [returns] using hr
    obtain ⟨e, bytes, hadd⟩ := addFile_ok hb.1 hc
    refine ⟨hadd.ok, fun p e' hp => ?_⟩
    rw [hadd.store, PathStore.put] at hp
    rw [hadd.entries]
    split at hp
    · obtain rfl : e = e' := by simpa using hp
      exact ⟨_, List.mem_append_right _ (List.mem_singleton_self _), rfl, rfl⟩
    · split at hp
      · cases hp
      · split at hp
        · cases hp
        · obtain ⟨x, hx, hoff⟩ := hb.2 p e' hp
          exact ⟨x, List.mem_append_left _ hx, hoff⟩
  · cases p with
    | nil => cases hp
    | cons k p =>
      have : initial.heap.child initial.root.rootDirectory k = none := rfl
      simp [store, Heap.store, resolve_cons, this] at hp

/-- The layout of the data array `D` of the builder `b` that `calls` have led to. -/
structure Layout (lib : PathLib) (calls : List AddFileCall) (b : RCBuilder) (D : List UInt8) :
    Prop where
  first : ∀ e, b.entriesList.head? = some e → e.offset = 0
  next : b.entriesList.IsChain fun e e' => e'.offset = e.offset + e.size
  last : ∀ e, b.entriesList.getLast? = some e → e.offset + e.size = D.length - 1
  terminator : D.getLast? = some 0
  disjoint : b.entriesList.Pairwise fun e e' => e.offset + e.size ≤ e'.offset
  /-- The node a call creates keeps its extent, the extent is that of the entry of the call, and it
  cuts the contents of the source file out of the array. -/
  node : ∀ pre c post, calls = pre ++ c :: post → ∃ b₁ b₂ n e bytes,
    addFiles lib returns initial pre = some b₁ ∧
    addFile lib c.fs b₁ c.basePath c.rp c.path = (b₂, none) ∧
    c.fs (c.source lib) = some bytes ∧
    b₁.heap.length ≤ n ∧ b₂.heap.resolve b₂.root.rootDirectory (c.virtualPath lib) = some n ∧
    b₂.heap.entryOf n = some (.file e) ∧ b.heap.entryOf n = some (.file e) ∧
    b.entriesList[pre.length]? = some ⟨c.source lib, e.size, e.offset⟩ ∧
    (D.drop e.offset).take e.size = bytes ∧ e.size = bytes.length
  /-- A slice that a lookup in a pack with the tree of `b` and the array leads to is in bounds and
  holds the contents of a source file. -/
  slice : ∀ h (r : Root) s node ptr, h.store r.rootDirectory = b.store → r.baseAddress = D →
    r.find h s = .ok node → r.getFilePointer h node = some ptr →
    ptr.offset + Root.getFileSize h node ≤ D.length - 1 ∧
      ∃ c ∈ calls, c.fs (c.source lib) = some (ptr.read (Root.getFileSize h node))

/-- Calls that return keep the invariant, the old nodes and the root. -/
theorem addFiles_views {calls : List AddFileCall} {b b' : RCBuilder} (hok : Ok b)
    (h : addFiles lib returns b calls = some b') :
    Ok b' ∧ Views b.heap b'.heap ∧ b'.root = b.root := by
  refine addFiles_induct (P := fun b' => Ok b' ∧ Views b.heap b'.heap ∧ b'.root = b.root)
    (fun b₁ c b₂ r hb hc hr => ?_) ⟨hok, .refl _, rfl⟩ h
  obtain rfl : r = none := by simpa [returns] using hr
  obtain ⟨e, bytes, hadd⟩ := addFile_ok hb.1 hc
  exact ⟨hadd.ok, hb.2.1.trans hadd.views, hadd.root.trans hb.2.2⟩

theorem getFilePointer_eq {h : Heap} {r : Root} {node : Option NodeId} {ptr : Root.Pointer}
    (hptr : r.getFilePointer h node = some ptr) :
    ∃ n e, node = some n ∧ h.entryOf n = some (.file e) ∧ ptr = ⟨r.baseAddress, e.offset⟩ ∧
      Root.getFileSize h node = e.size := by
  rw [Root.getFilePointer] at hptr
  split at hptr
  · next e he =>
    obtain ⟨n, rfl, hn⟩ := Option.bind_eq_some_iff.1 he
    exact ⟨n, e, rfl, hn, (Option.some.inj hptr).symm, by rw [Root.getFileSize, he]⟩
  · cases hptr

theorem nextOffset_entriesFrom {cs : List AddFileCall}
    (hlt : (cs.flatMap (·.contents lib)).length < 2 ^ 64) :
    nextOffset (entriesFrom lib 0 cs) = (cs.flatMap (·.contents lib)).length := by
  cases hlast : (entriesFrom lib 0 cs).getLast? with
  | none =>
    rw [List.getLast?_eq_none_iff, ← List.length_eq_zero_iff, length_entriesFrom,
      List.length_eq_zero_iff] at hlast
    subst hlast
    rfl
  | some x =>
    have hx := entriesFrom_last hlast
    rw [Nat.zero_add] at hx
    simp only [nextOffset, hlast, hx, sizeT, Nat.mod_eq_of_lt hlt]

theorem getElem?_entriesFrom (pre : List AddFileCall) (c : AddFileCall) (post : List AddFileCall) :
    (entriesFrom lib 0 (pre ++ c :: post))[pre.length]? =
      some ⟨c.source lib, (c.contents lib).length, (pre.flatMap (·.contents lib)).length⟩ := by
  rw [entriesFrom_append, List.getElem?_append_right (length_entriesFrom 0 pre).le,
    length_entriesFrom, Nat.sub_self, entriesFrom]
  simp

/-- The node that a call creates: its extent lies where the contents of its file lie. -/
theorem node_dataOf {pre post : List AddFileCall} {c : AddFileCall} {b : RCBuilder}
    (h : addFiles lib returns initial (pre ++ c :: post) = some b)
    (hlt : ((pre ++ c :: post).flatMap (·.contents lib)).length < 2 ^ 64) :
    ∃ b₁ b₂ n, addFiles lib returns initial pre = some b₁ ∧
      addFile lib c.fs b₁ c.basePath c.rp c.path = (b₂, none) ∧
      b₁.heap.length ≤ n ∧ b₂.heap.resolve b₂.root.rootDirectory (c.virtualPath lib) = some n ∧
      b₂.heap.entryOf n =
        some (.file ⟨(pre.flatMap (·.contents lib)).length, (c.contents lib).length⟩) ∧
      b.heap.entryOf n = b₂.heap.entryOf n := by
  rw [addFiles_append] at h
  obtain ⟨b₁, hpre, h⟩ := Option.bind_eq_some_iff.1 h
  obtain ⟨b₂, hc, hpost⟩ := addFiles_cons h
  obtain ⟨hok₁, -, -⟩ := addFiles_views initial_ok hpre
  obtain ⟨⟨offset, size⟩, bytes, hadd⟩ := addFile_ok hok₁ hc
  obtain ⟨n, hn, hres, hentry⟩ := hadd.created
  obtain ⟨-, hviews, -⟩ := addFiles_views hadd.ok hpost
  have hnlt : n < b₂.heap.length := by
    by_contra hge
    simp [entryOf, List.getElem?_eq_none (not_lt.1 hge)] at hentry
  have hcontents : c.contents lib = bytes := by
    simp [AddFileCall.contents, AddFileCall.source, hadd.contents]
  simp only [List.flatMap_append, List.flatMap_cons, List.length_append, hcontents] at hlt
  have hpre_lt : (pre.flatMap (·.contents lib)).length < 2 ^ 64 := by omega
  obtain ⟨hentries, -⟩ := addFiles_initial hpre hpre_lt
  have hoffset : offset = (pre.flatMap (·.contents lib)).length := by
    rw [← nextOffset_entriesFrom hpre_lt, ← hentries]
    exact hadd.offset
  have hsize : size = (c.contents lib).length := by
    rw [hcontents]
    exact hadd.size.trans (Nat.mod_eq_of_lt (by omega))
  subst hoffset hsize
  rw [← hadd.root] at hres
  exact ⟨b₁, b₂, n, hpre, hc, hn, hres, hentry, hviews.entry n hnlt⟩

/-- **The layout of the contents put one after the other.** -/
theorem layout_dataOf {calls : List AddFileCall} {b : RCBuilder}
    (h : addFiles lib returns initial calls = some b)
    (hlt : (calls.flatMap (·.contents lib)).length < 2 ^ 64) :
    Layout lib calls b (dataOf lib calls) := by
  have hlen : (dataOf lib calls).length - 1 = (calls.flatMap (·.contents lib)).length := by
    simp [dataOf]
  obtain ⟨hentries, hfs⟩ := addFiles_initial h hlt
  refine ⟨fun e he => ?_, hentries ▸ entriesFrom_isChain 0 calls, fun e he => ?_,
    List.getLast?_concat .., hentries ▸ entriesFrom_pairwise 0 calls, fun pre c post hcalls => ?_,
    fun h' r s node ptr hstore hbase hfind hptr => ?_⟩
  · cases calls with
    | nil => simp [hentries, entriesFrom] at he
    | cons c cs =>
      obtain rfl : _ = e := by simpa [hentries, entriesFrom] using he
      rfl
  · rw [hlen, entriesFrom_last (hentries ▸ he), Nat.zero_add]
  · subst hcalls
    obtain ⟨b₁, b₂, n, hpre, hc, hn, hres, hentry, hkeep⟩ := node_dataOf h hlt
    refine ⟨b₁, b₂, n, _, c.contents lib, hpre, hc, hfs c (by simp), hn, hres, hentry,
      hkeep.trans hentry, ?_, slice_entry pre c post, rfl⟩
    rw [hentries, getElem?_entriesFrom]
  · obtain ⟨n, e, rfl, he, rfl, hsize⟩ := getFilePointer_eq hptr
    have hp : b.store (Str.split (s.drop 2)) = some (.file e) := by
      rw [Root.find] at hfind
      split at hfind
      · cases hfind
      · rw [findRecursive_eq, Except.ok.injEq] at hfind
        rw [← hstore, Heap.store, hfind]
        exact he
    obtain ⟨x, hx, hoff, hsz⟩ := addFiles_store_entries h hp
    rw [hentries] at hx
    obtain ⟨pre, c, post, rfl, rfl⟩ := mem_entriesFrom hx
    rw [hsize, hlen]
    simp only [Nat.zero_add] at hoff hsz
    refine ⟨?_, c, by simp, ?_⟩
    · rw [← hoff, ← hsz]
      simp
    · rw [hfs c (by simp), Root.Pointer.read, hbase, ← hoff, ← hsz, slice_entry]

/-- **The data array of a pack.** Calls of `addFile` return on files that are unchanged when the
pack is written, and their sizes fit `size_t`. Then the file is written, its array has the layout of
the calls, and the pack that is loaded from it has the tree of the builder. -/
theorem writeFile_layout (lib : PathLib) {calls : List AddFileCall} {b : RCBuilder}
    (hb : addFiles lib returns initial calls = some b) {fs : FileSystem}
    (hfs : ∀ c ∈ calls, fs (c.source lib) = c.fs (c.source lib))
    (hlt : (calls.flatMap (·.contents lib)).length < 2 ^ 64) {order : Order}
    (horder : order.Valid) :
    ∃ D bound, Layout lib calls b D ∧ ∀ fuel ≥ bound, ∃ out,
      writeFile fuel order fs true b = some (.ok out) ∧ Chunk.data out = D ∧
      ∀ root, ∃ c, Root.construct fuel [] root (Chunk.items out) = some (.ok c) ∧
        c.heap.store c.rootDirectory = b.store := by
  obtain ⟨F, hF, hwf, hstore⟩ := (addFiles_reached (addFiles_returns hb)).exists_forest horder
  obtain ⟨hentries, hcontents⟩ := addFiles_initial hb hlt
  have hpacked : Packed fs b.entriesList (calls.map (·.contents lib)) :=
    hentries ▸ packed_entriesFrom 0 fun c hc => (hfs c hc).trans (hcontents c hc)
  refine ⟨dataOf lib calls, F.size + 1, layout_dataOf hb hlt, fun fuel hfuel =>
    ⟨_, writeFile_eq hF hpacked hfuel, ?_, fun root => ?_⟩⟩
  · rw [data_output, List.flatMap_def, List.map_snd_zip hpacked.length_eq.ge, dataOf,
      List.flatMap_def]
  · rw [items_output]
    obtain ⟨h', hrun, hdec⟩ :=
      Root.construct_tocItems ok_nil root (Str.ascii ":/") hwf [sentinel] hfuel
    exact ⟨_, hrun, hdec.store.trans hstore⟩

theorem writeFile_layout_twoFiles :
    ∃ b, addFiles .posix returns initial twoFiles = some b ∧
      ∃ D bound, Layout .posix twoFiles b D ∧ ∀ fuel ≥ bound, ∃ out,
        writeFile fuel (fun _ l => l)
          (fun p => if p = Str.ascii "src/a.lua" then some [1, 2] else some [3]) true b =
            some (.ok out) ∧ Chunk.data out = D ∧
        ∀ root, ∃ c, Root.construct fuel [] root (Chunk.items out) = some (.ok c) ∧
          c.heap.store c.rootDirectory = b.store := by
  obtain ⟨b, hb⟩ := Option.isSome_iff_exists.1
    (show (addFiles .posix returns initial twoFiles).isSome by decide)
  exact ⟨b, hb, writeFile_layout .posix hb (by decide) (by decide) fun _ _ => .refl _⟩

end Jord.Rc.RCBuilder
