import Jord.Rc.Emitted

/-!
# The table of contents round trip

What `writeFile` emits as table of contents, the constructor of `Root` reads back as the same tree.

* `Reached` collects what holds of a builder that calls of `addFile` have led to: the invariant of
  its heap, and that no directory below the root is empty. The second part is what makes the
  decoder, which drops directories without entries, agree with the encoder.
* `writeToc_eq` and `construct_tocItems` meet at the forest of the tree.
* `SameTree` compares two trees by the paths that lead to their nodes.
-/

namespace Jord.Rc.RCBuilder

open Heap

/-! ## Builders that calls lead to -/

/-- The invariant of a builder whose calls returned or threw `RC tree error`. -/
structure Reached (b : RCBuilder) : Prop where
  ok : Ok b
  noEmptyDir : b.store.NoEmptyDir

theorem initial_reached : Reached initial := by
  refine ⟨initial_ok, fun p hp h => ?_⟩
  obtain ⟨k, p, rfl⟩ := List.exists_cons_of_ne_nil hp
  have : initial.heap.child initial.root.rootDirectory k = none := rfl
  simp [store, Heap.store, resolve_cons, this] at h

theorem addFiles_reached {lib : PathLib} {calls : List AddFileCall} {b : RCBuilder}
    (h : addFiles lib returnsOrTreeError initial calls = some b) : Reached b := by
  refine addFiles_induct (fun b c b' r hb hc hr => ?_) initial_reached h
  rcases r with _ | e
  · obtain ⟨e, bytes, hadd⟩ := addFile_ok hb.ok hc
    refine ⟨hadd.ok, ?_⟩
    rw [hadd.store]
    exact hb.noEmptyDir.put
  · obtain rfl : e = treeError := by simpa [returnsOrTreeError] using hr
    rwa [addFile_treeError hb.ok hc]

/-- Every directory that a path of at least one name leads to has a child. -/
theorem Reached.exists_child {b : RCBuilder} (hb : Reached b) {p : List Str} {n : NodeId}
    (hp : p ≠ []) (hr : b.heap.resolve b.root.rootDirectory p = some n)
    (hn : b.heap.isDirectory n) : ∃ k e, b.heap.child n k = some e := by
  obtain ⟨k, hk⟩ := hb.noEmptyDir p hp (store_eq_directory hr hn)
  refine ⟨k, Option.ne_none_iff_exists'.1 fun hnone => hk ?_⟩
  simp [store, Heap.store, resolve_concat, hr, hnone]

/-- The tree of a builder as a forest, for an order of enumeration. -/
theorem Reached.exists_forest {b : RCBuilder} (hb : Reached b) {order : Order}
    (horder : order.Valid) :
    ∃ F, Shape order b.heap (childList order b.heap b.root.rootDirectory) F ∧ F.Wf ∧
      F.entryAt = b.store := by
  have hmem : ∀ c ∈ childList order b.heap b.root.rootDirectory,
      ∃ k, b.heap.child b.root.rootDirectory k = some c := fun c hc => (mem_childList horder).1 hc
  obtain ⟨F, hF⟩ := exists_shape hb.ok.heap horder b.heap.length _ fun c hc => by
    obtain ⟨k, hk⟩ := hmem c hc
    exact ⟨hb.ok.heap.lt_length hk, Nat.le_add_left _ _⟩
  refine ⟨F, hF, ?_, hF.entryAt_childList hb.ok.heap horder hb.ok.root⟩
  apply hF.wf hb.ok.heap horder (nodup_name_childList hb.ok.heap horder _)
  intro c hc p n hp hn
  obtain ⟨k, hk⟩ := hmem c hc
  exact hb.exists_child (List.cons_ne_nil k p) (by simp [resolve_cons, hk, hp]) hn

/-! ## The two trees -/

/-- The trees below `r` in `h` and below `r'` in `h'` have the same paths, and the two nodes at a
path have the same kind, the same name and corresponding parents. In both trees a node is at one
path only. -/
structure SameTree (h : Heap) (r : NodeId) (h' : Heap) (r' : NodeId) : Prop where
  entry : ∀ p, (h'.resolve r' p).bind h'.entryOf = (h.resolve r p).bind h.entryOf
  name : ∀ p, (h'.resolve r' p).bind h'.name? = (h.resolve r p).bind h.name?
  parent_root : h.parent? r = none ∧ h'.parent? r' = none
  parent : ∀ p k n n', h.resolve r (p ++ [k]) = some n → h'.resolve r' (p ++ [k]) = some n' →
    h.resolve r p = h.parent? n ∧ h'.resolve r' p = h'.parent? n'
  inj : ∀ p q n, h.resolve r p = some n → h.resolve r q = some n → p = q
  inj' : ∀ p q n, h'.resolve r' p = some n → h'.resolve r' q = some n → p = q

theorem parent?_of_resolve {h : Heap} (hok : Heap.Ok h) {r n : NodeId} {p : List Str} {k : Str}
    (hr : h.resolve r (p ++ [k]) = some n) : h.resolve r p = h.parent? n := by
  rw [resolve_concat] at hr
  obtain ⟨d, hd, hc⟩ := Option.bind_eq_some_iff.1 hr
  rw [hd, hok.parent hc]

theorem name?_of_resolve {h : Heap} (hok : Heap.Ok h) {r n : NodeId} {p : List Str} {k : Str}
    (hr : h.resolve r (p ++ [k]) = some n) : h.name? n = some k := by
  rw [resolve_concat] at hr
  obtain ⟨d, -, hc⟩ := Option.bind_eq_some_iff.1 hr
  exact hok.name hc

/-- A node that a path from a live node leads to is live. -/
theorem isSome_resolve {h : Heap} (hok : Heap.Ok h) {r : NodeId} (hlt : r < h.length)
    (p : List Str) : (h.resolve r p).isSome = (h.store r p).isSome := by
  cases hp : h.resolve r p with
  | none => simp [Heap.store, hp]
  | some n =>
    have hn := hok.resolve_lt_length hlt hp
    simp [Heap.store, hp, entryOf, List.getElem?_eq_getElem hn]

/-- Trees with the same store and the same name of the root are the same. -/
theorem sameTree_of_store {h h' : Heap} {r r' : NodeId} (hok : Heap.Ok h) (hok' : Heap.Ok h')
    (hlt : r < h.length) (hlt' : r' < h'.length) (hstore : h'.store r' = h.store r)
    (hname : h'.name? r' = h.name? r) (hparent : h.parent? r = none)
    (hparent' : h'.parent? r' = none) : SameTree h r h' r' := by
  refine ⟨fun p => congrFun hstore p, fun p => ?_, ⟨hparent, hparent'⟩,
    fun p k n n' hn hn' => ⟨parent?_of_resolve hok hn, parent?_of_resolve hok' hn'⟩,
    fun p q n => hok.resolve_inj, fun p q n => hok'.resolve_inj⟩
  rcases List.eq_nil_or_concat p with rfl | ⟨p, k, rfl⟩
  · exact hname
  · rw [List.concat_eq_append]
    have hsome : (h'.resolve r' (p ++ [k])).isSome = (h.resolve r (p ++ [k])).isSome := by
      rw [isSome_resolve hok hlt, isSome_resolve hok' hlt', hstore]
    cases hn : h.resolve r (p ++ [k]) with
    | none =>
      rw [hn, Option.isSome_none, Option.isSome_eq_false_iff, Option.isNone_iff_eq_none] at hsome
      rw [hsome]
      rfl
    | some n =>
      rw [hn, Option.isSome_some, Option.isSome_iff_exists] at hsome
      obtain ⟨n', hn'⟩ := hsome
      rw [hn', Option.bind_some, Option.bind_some, name?_of_resolve hok hn,
        name?_of_resolve hok' hn']

/-! ## The round trip -/

/-- What the constructor of `Root` has done with the items of `b`: it has rebuilt the tree, and its
pointer `current` has taken the index of every item once, in order, and stands on the last one. -/
structure Rebuilt (b : RCBuilder) (items : List TOCItem) (c : Root.Constructed) : Prop where
  same : SameTree b.heap b.root.rootDirectory c.heap c.rootDirectory
  visited : c.visited = List.range items.length
  current : c.current + 1 = items.length

/-- The table of contents of `b` is read back: with fuel from `bound` on, the table loop of
`writeFile` ends with the chunks `toc`, whose items are `items` and the sentinel, and the
constructor of `Root`, run in the heap `h` on `items` whatever follows them in memory, ends without
a fault. -/
structure RoundTrip (order : Order) (b : RCBuilder) (h : Heap) (root : RootId) (toc : List Chunk)
    (items : List TOCItem) (bound : ℕ) : Prop where
  written : ∀ fuel ≥ bound, writeToc fuel order b = some (.ok toc)
  emitted : Chunk.items toc = items ++ [sentinel]
  file : ∀ fuel ≥ bound, ∀ fs data, writeData fs b = .ok data →
    ∃ out, writeFile fuel order fs true b = some (.ok out) ∧ Chunk.items out = items ++ [sentinel]
  read : ∀ fuel ≥ bound, ∀ tail, ∃ c,
    Root.construct fuel h root (items ++ tail) = some (.ok c) ∧ Rebuilt b items c

/-- **The table of contents round trip.** Whatever calls of `addFile` that return or throw
`RC tree error` have led to the builder, and whatever the order of enumeration is, the constructor
of `Root` rebuilds the tree of the builder from the emitted table. It looks at every emitted item
once, and neither at the sentinel nor at anything behind it. -/
theorem construct_writeToc (lib : PathLib) {calls : List AddFileCall} {b : RCBuilder}
    (hb : addFiles lib returnsOrTreeError initial calls = some b) {order : Order}
    (horder : order.Valid) {h : Heap} (hok : Heap.Ok h) (root : RootId) :
    ∃ toc items bound, RoundTrip order b h root toc items bound := by
  have hreached := addFiles_reached hb
  obtain ⟨F, hF, hwf, hstore⟩ := hreached.exists_forest horder
  refine ⟨tocOutput F, packItems F, F.size + 1, fun fuel hfuel => writeToc_eq hF hfuel,
    items_tocOutput F, fun fuel hfuel fs data hdata => ?_, fun fuel hfuel tail => ?_⟩
  · obtain ⟨parts, hparts⟩ := writeData_ok hdata
    exact ⟨_, writeFile_eq hF hparts hfuel, items_output F _ _⟩
  · obtain ⟨h', hrun, hdec⟩ := Root.construct_tocItems hok root (Str.ascii ":/") hwf tail hfuel
    refine ⟨_, hrun, sameTree_of_store hreached.ok.heap hdec.ok (lt_of_isDirectory hreached.ok.root)
      hdec.lt ?_ ?_ hreached.ok.parent hdec.parent, ?_, ?_⟩
    · rw [hdec.store, hstore]
      rfl
    · rw [hdec.name, hreached.ok.name]
    · simp [packItems]
    · simp [packItems]

/-- A file at the top and one in a directory. -/
def twoFiles : List AddFileCall :=
  [⟨fun _ => some [1, 2], Str.ascii ":/", Str.ascii "src", Str.ascii "a.lua"⟩,
    ⟨fun _ => some [3], Str.ascii ":/lua", Str.ascii "src", Str.ascii "b/c.lua"⟩]

theorem construct_writeToc_twoFiles :
    ∃ b, addFiles .posix returnsOrTreeError initial twoFiles = some b ∧
      ∃ toc items bound, RoundTrip (fun _ l => l) b [] 1 toc items bound := by
  obtain ⟨b, hb⟩ := Option.isSome_iff_exists.1
    (show (addFiles .posix returnsOrTreeError initial twoFiles).isSome by decide)
  exact ⟨b, hb, construct_writeToc .posix hb (fun _ _ => .refl _) ok_nil 1⟩

end Jord.Rc.RCBuilder
