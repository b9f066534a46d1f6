import Jord.Foundations.Bytes
import Jord.Foundations.PathStore
import Mathlib.Data.List.AList

/-!
# Nodes of a resource tree

The nodes of all resource trees live in one heap and are addressed by their position in it, in the
order of construction. A directory holds a lookup table from names to child nodes; every node holds
its name, its parent and the root object that owns it.

* `newNode` is the constructor shared by `Directory` and `File`: it links the node into its parent
  (`addChild`) and then copies the parent's owner.
* `Attached` says what the constructor does to the heap; its lemmas are the only place where the
  links are unfolded.
-/

namespace Jord.Rc

/-- The address of a node. -/
abbrev NodeId := ℕ

/-- The address of a `Root` object. -/
abbrev RootId := ℕ

/-- `Directory::children_lookup_t` -/
abbrev Lookup := AList fun _ : Str => NodeId

/-- The place of a file in the data array. -/
structure Extent where
  offset : ℕ
  size : ℕ
  deriving DecidableEq

/-- The kind of a node: a directory, or a file with its place in the data array. -/
abbrev Entry := PathStore.Entry Extent

/-- What `Directory` and `File` add to a `Node`. -/
inductive NodeData
  | directory (childrenLookup : Lookup)
  | file (extent : Extent)
  deriving DecidableEq

/-- `rc::Node`. The owner is uninitialised (`none`) until a parent or `setOwner` gives one. -/
structure Node where
  name : Str
  parent : Option NodeId
  owner : Option RootId
  data : NodeData
  deriving DecidableEq

/-- The exceptions of the resource code and of the libraries it uses. -/
inductive Exn
  /-- `RCException` with its reason. -/
  | rc (reason : Str)
  /-- `boost::filesystem::filesystem_error` -/
  | filesystem
  /-- `std::out_of_range` -/
  | outOfRange
  deriving DecidableEq

/-- All nodes constructed so far, by address. -/
abbrev Heap := List Node

namespace NodeData

/-- The kind of an entry. -/
def entry : NodeData → Entry
  | .directory _ => .directory
  | .file e => .file e

/-- The lookup table; a file has none. -/
def lookup : NodeData → Lookup
  | .directory l => l
  | .file _ => ∅

/-- The data of a directory after `m_ChildrenLookup[name] = child`. -/
def insert (name : Str) (child : NodeId) : NodeData → NodeData
  | .directory l => .directory (l.insert name child)
  | .file e => .file e

@[simp] theorem entry_insert (name : Str) (c : NodeId) (d : NodeData) :
    (d.insert name c).entry = d.entry := by
  cases d <;> rfl

end NodeData

namespace Heap

/-- The name of a node. -/
def name? (h : Heap) (n : NodeId) : Option Str := h[n]?.map Node.name

/-- `Node::getParent` -/
def parent? (h : Heap) (n : NodeId) : Option NodeId := (h[n]?.map Node.parent).join

/-- `Node::getOwner` -/
def owner? (h : Heap) (n : NodeId) : Option RootId := (h[n]?.map Node.owner).join

/-- The kind of a node, as the two `dynamic_cast`s see it. -/
def entryOf (h : Heap) (n : NodeId) : Option Entry := h[n]?.map fun x => x.data.entry

/-- `dynamic_cast<Directory*>` of the node is not null. -/
def isDirectory (h : Heap) (n : NodeId) : Bool := h.entryOf n == some .directory

/-- The lookup table of a node. -/
def lookup (h : Heap) (d : NodeId) : Lookup := (h[d]?.map fun x => x.data.lookup).getD ∅

/-- The child stored in a directory under a name: `m_ChildrenLookup.find`. -/
def child (h : Heap) (d : NodeId) (k : Str) : Option NodeId := (h.lookup d).lookup k

/-- The child nodes of a directory, in the order of the table. -/
def children (h : Heap) (d : NodeId) : List NodeId := (h.lookup d).entries.map Sigma.snd

/-- `Directory::addChild`: a null child is ignored. -/
def addChild (h : Heap) (d : NodeId) (child : Option NodeId) : Heap :=
  match child with
  | none => h
  | some c =>
    match h[c]? with
    | none => h
    | some x =>
      (h.modify d fun y => { y with data := y.data.insert x.name c }).modify c
        fun y => { y with parent := some d }

/-- The constructor of `Node` called by those of `Directory` and `File`: the new node is linked
into its parent before it takes over the parent's owner. -/
def newNode (h : Heap) (name : Str) (parent : Option NodeId) (data : NodeData) :
    Except Exn (Heap × NodeId) :=
  let id := h.length
  let h' := h ++ [⟨name, parent, none, data⟩]
  match parent with
  | none => .ok (h', id)
  | some p =>
    if h'.isDirectory p then
      let h'' := h'.addChild p (some id)
      .ok (h''.modify id fun y => { y with owner := h''.owner? p }, id)
    else .error (.rc (Str.ascii "Invalid parent node"))

/-- `new Directory( name, parent )` -/
def newDirectory (h : Heap) (name : Str) (parent : Option NodeId) : Except Exn (Heap × NodeId) :=
  h.newNode name parent (.directory ∅)

/-- `new File( initial_offset, size, name, parent )` -/
def newFile (h : Heap) (offset size : ℕ) (name : Str) (parent : Option NodeId) :
    Except Exn (Heap × NodeId) :=
  h.newNode name parent (.file ⟨offset, size⟩)

/-- `Node::setOwner` and `Directory::setOwner`: the children first, then the node itself. The fuel
bounds the depth of the recursion. -/
def setOwner (root : RootId) : ℕ → Heap → NodeId → Option Heap
  | 0, _, _ => none
  | fuel + 1, h, n => do
    let h' ← (h.children n).foldlM (fun h c => setOwner root fuel h c) h
    some (h'.modify n fun y => { y with owner := some root })

/-- `Node::getFullName`: the full name of the parent followed by the name, with nothing between
them. The fuel bounds the length of the parent chain. -/
def getFullName (h : Heap) : ℕ → NodeId → Option Str
  | 0, _ => none
  | fuel + 1, n =>
    match h[n]? with
    | none => none
    | some x =>
      match x.parent with
      | none => some x.name
      | some p => (getFullName h fuel p).map (· ++ x.name)

/-! ## What a constructor does to the heap -/

/-- The heap `h'` is `h` with a node constructed under the directory `p`. -/
structure Attached (h : Heap) (p : NodeId) (name : Str) (data : NodeData) (h' : Heap) : Prop where
  lt : p < h.length
  length : h'.length = h.length + 1
  get_new : h'[h.length]? = some ⟨name, some p, h.owner? p, data⟩
  get_parent : h'[p]? = h[p]?.map fun y => { y with data := y.data.insert name h.length }
  get_other : ∀ i, i ≠ p → i ≠ h.length → h'[i]? = h[i]?

theorem lt_of_isDirectory {h : Heap} {p : NodeId} (hp : h.isDirectory p) : p < h.length := by
  by_contra hlt
  simp [isDirectory, entryOf, List.getElem?_eq_none (not_lt.1 hlt)] at hp

theorem newNode_attached {h : Heap} {p : NodeId} (hp : h.isDirectory p) (name : Str)
    (data : NodeData) :
    ∃ h', h.newNode name (some p) data = .ok (h', h.length) ∧ Attached h p name data h' := by
  have hlt := lt_of_isDirectory hp
  have hne : h.length ≠ p := Nat.ne_of_gt hlt
  set g : Heap := h ++ [⟨name, some p, none, data⟩] with hg
  have hnew : g[h.length]? = some ⟨name, some p, none, data⟩ := by simp [hg]
  have hold : ∀ i < h.length, g[i]? = h[i]? := fun i hi => List.getElem?_append_left hi
  have hp' : g.isDirectory p := by
    simpa only [isDirectory, entryOf, hold p hlt] using hp
  have hadd : g.addChild p (some h.length) =
      (g.modify p fun y => { y with data := y.data.insert name h.length }).modify h.length
        fun y => { y with parent := some p } := by
    simp only [addChild, hnew]
  refine ⟨(g.addChild p (some h.length)).modify h.length
    fun y => { y with owner := (g.addChild p (some h.length)).owner? p },
    by simp only [newNode, ← hg, hp', if_true], hlt, ?_, ?_, ?_, ?_⟩
  · rw [hadd]
    simp [hg]
  · have howner : (g.addChild p (some h.length)).owner? p = h.owner? p := by
      simp only [hadd, owner?, List.getElem?_modify, hne, hold p hlt]
      cases h[p]? <;> rfl
    rw [howner]
    simp [hadd, hne.symm, hnew]
  · simp [hadd, hne, hold p hlt]
  · intro i hip hi
    have hgi : g[i]? = h[i]? := by
      rcases Nat.lt_or_gt_of_ne hi with hi | hi
      · exact hold i hi
      · rw [List.getElem?_eq_none (by simp [hg]; omega), List.getElem?_eq_none (by omega)]
    simp [hadd, hip.symm, hi.symm, hgi]

/-- The nodes of `h` have the same kind and the same links upwards in `h'`. -/
structure Views (h h' : Heap) : Prop where
  le : h.length ≤ h'.length
  entry : ∀ n < h.length, h'.entryOf n = h.entryOf n
  name : ∀ n < h.length, h'.name? n = h.name? n
  parent : ∀ n < h.length, h'.parent? n = h.parent? n
  owner : ∀ n < h.length, h'.owner? n = h.owner? n

theorem Views.refl (h : Heap) : Views h h :=
  ⟨le_rfl, fun _ _ => rfl, fun _ _ => rfl, fun _ _ => rfl, fun _ _ => rfl⟩

theorem Views.trans {h h' h'' : Heap} (hv : Views h h') (hv' : Views h' h'') : Views h h'' where
  le := hv.le.trans hv'.le
  entry n hn := (hv'.entry n (hn.trans_le hv.le)).trans (hv.entry n hn)
  name n hn := (hv'.name n (hn.trans_le hv.le)).trans (hv.name n hn)
  parent n hn := (hv'.parent n (hn.trans_le hv.le)).trans (hv.parent n hn)
  owner n hn := (hv'.owner n (hn.trans_le hv.le)).trans (hv.owner n hn)

/-- A heap that has gained a node. -/
theorem views_concat (h : Heap) (x : Node) : Views h (h ++ [x]) := by
  have hold : ∀ n < h.length, (h ++ [x])[n]? = h[n]? := fun n hn => List.getElem?_append_left hn
  refine ⟨by simp, fun n hn => ?_, fun n hn => ?_, fun n hn => ?_, fun n hn => ?_⟩
  · rw [entryOf, hold n hn, entryOf]
  · rw [name?, hold n hn, name?]
  · rw [parent?, hold n hn, parent?]
  · rw [owner?, hold n hn, owner?]

namespace Attached

variable {h h' : Heap} {p : NodeId} {name : Str} {data : NodeData}

theorem ne_length (ha : Attached h p name data h') : p ≠ h.length := Nat.ne_of_lt ha.lt

/-- What a view of the nodes that does not see the lookup tables shows after the construction. -/
theorem map_get (ha : Attached h p name data h') {α : Type*} (f : Node → α)
    (hf : ∀ y, f { y with data := y.data.insert name h.length } = f y) (n : NodeId) :
    h'[n]?.map f =
      if n = h.length then some (f ⟨name, some p, h.owner? p, data⟩) else h[n]?.map f := by
  by_cases hn : n = h.length
  · simp [hn, ha.get_new]
  · by_cases hp : n = p
    · simp [hp, ha.ne_length, ha.get_parent, Function.comp_def, hf]
    · simp [hn, ha.get_other n hp hn]

theorem entryOf (ha : Attached h p name data h') (n : NodeId) :
    h'.entryOf n = if n = h.length then some data.entry else h.entryOf n :=
  ha.map_get (fun x => x.data.entry) (fun _ => NodeData.entry_insert ..) n

theorem name? (ha : Attached h p name data h') (n : NodeId) :
    h'.name? n = if n = h.length then some name else h.name? n :=
  ha.map_get Node.name (fun _ => rfl) n

theorem parent? (ha : Attached h p name data h') (n : NodeId) :
    h'.parent? n = if n = h.length then some p else h.parent? n := by
  simp only [Heap.parent?, ha.map_get Node.parent (fun _ => rfl) n]
  split <;> rfl

theorem owner? (ha : Attached h p name data h') (n : NodeId) :
    h'.owner? n = if n = h.length then h.owner? p else h.owner? n := by
  simp only [Heap.owner?, ha.map_get Node.owner (fun _ => rfl) n]
  split <;> rfl

/-- The nodes that were there keep their kind and their links upwards. -/
theorem views (ha : Attached h p name data h') : Views h h' := by
  have hne : ∀ n < h.length, n ≠ h.length := fun _ hn => Nat.ne_of_lt hn
  refine ⟨by rw [ha.length]; exact Nat.le_succ _, fun n hn => ?_, fun n hn => ?_, fun n hn => ?_,
    fun n hn => ?_⟩
  · rw [ha.entryOf, if_neg (hne n hn)]
  · rw [ha.name?, if_neg (hne n hn)]
  · rw [ha.parent?, if_neg (hne n hn)]
  · rw [ha.owner?, if_neg (hne n hn)]

theorem lookup (ha : Attached h p name data h') (hp : h.isDirectory p) (d : NodeId) :
    h'.lookup d = if d = h.length then data.lookup
      else if d = p then (h.lookup p).insert name h.length else h.lookup d := by
  by_cases hn : d = h.length
  · simp [Heap.lookup, hn, ha.get_new]
  · by_cases hd : d = p
    · obtain ⟨⟨_, _, _, l | _⟩, hy⟩ : ∃ y, h[p]? = some y := ⟨_, List.getElem?_eq_getElem ha.lt⟩
      · simp [Heap.lookup, hd, ha.ne_length, ha.get_parent, hy, NodeData.insert, NodeData.lookup]
      · simp [isDirectory, Heap.entryOf, hy, NodeData.entry] at hp
    · simp [Heap.lookup, hn, hd, ha.get_other d hd hn]

theorem child (ha : Attached h p name data h') (hp : h.isDirectory p) (hd : data.lookup = ∅)
    (d : NodeId) (k : Str) :
    h'.child d k = if d = p ∧ k = name then some h.length
      else if d = h.length then none else h.child d k := by
  simp only [Heap.child, ha.lookup hp, hd]
  by_cases hn : d = h.length
  · simp [hn, ha.ne_length.symm]
  · by_cases hdp : d = p
    · by_cases hk : k = name
      · subst hk
        simp [hdp, ha.ne_length]
      · simp [hdp, hk, ha.ne_length, AList.lookup_insert_ne hk]
    · simp [hn, hdp]

end Attached

end Heap

end Jord.Rc
